import Mathlib.Data.List.Forall2

/-!
# Computations that call into a host language

A function of an extension returns a value or an error of its own, or it does not return: the host
raises an exception through its frames, it panics, or its behaviour is undefined.
-/

namespace RustlyCore

/-- How a computation ends without a value. Only `error` reaches the caller. -/
inductive Stop (ξ ε : Type) where
  | error (error : ε)
  | raised (exception : ξ)
  | panicked
  | undefined

abbrev Fallible (ξ ε α : Type) := Except (Stop ξ ε) α

namespace Fallible

variable {ξ ε ε' α β : Type}

def fail (error : ε) : Fallible ξ ε α := .error (.error error)

def raise (exception : ξ) : Fallible ξ ε α := .error (.raised exception)

def panic : Fallible ξ ε α := .error .panicked

def undefined : Fallible ξ ε α := .error .undefined

/-- The outcome that a caller matches on. Whatever does not return stops the caller too. -/
def attempt : Fallible ξ ε α → Fallible ξ ε' (Except ε α)
  | .ok a => .ok (.ok a)
  | .error (.error error) => .ok (.error error)
  | .error (.raised exception) => .error (.raised exception)
  | .error .panicked => .error .panicked
  | .error .undefined => .error .undefined

@[simp] theorem attempt_ok (a : α) :
    attempt (.ok a : Fallible ξ ε α) = (.ok (.ok a) : Fallible ξ ε' _) := rfl

theorem attempt_eq_ok {x : Fallible ξ ε α} {a : α} :
    (attempt x : Fallible ξ ε' _) = .ok (.ok a) ↔ x = .ok a := by
  cases x with
  | ok => simp
  | error stop => cases stop <;> simp [attempt]

theorem bind_eq_ok {x : Fallible ξ ε α} {f : α → Fallible ξ ε β} {b : β} :
    (x >>= f) = .ok b ↔ ∃ a, x = .ok a ∧ f a = .ok b := by
  cases x <;> simp [bind, Except.bind]

theorem bind_eq_error {x : Fallible ξ ε α} {f : α → Fallible ξ ε β} {stop : Stop ξ ε} :
    (x >>= f) = .error stop ↔ x = .error stop ∨ ∃ a, x = .ok a ∧ f a = .error stop := by
  cases x <;> simp [bind, Except.bind]

theorem bind_pure_eq_error {x : Fallible ξ ε α} {f : α → β} {stop : Stop ξ ε} :
    (x >>= fun a => pure (f a)) = .error stop ↔ x = .error stop := by
  cases x <;> simp [bind, Except.bind, pure, Except.pure]

theorem bind_eq_fail {x : Fallible ξ ε α} {f : α → Fallible ξ ε β} {error : ε} :
    (x >>= f) = fail error ↔ x = fail error ∨ ∃ a, x = .ok a ∧ f a = fail error := by
  cases x <;> simp [bind, Except.bind, fail]

@[simp] theorem pure_eq_ok {a b : α} : (pure a : Fallible ξ ε α) = .ok b ↔ a = b := by
  simp [pure, Except.pure]

@[simp] theorem ok_bind (a : α) (f : α → Fallible ξ ε β) : (Except.ok a >>= f) = f a := rfl

@[simp] theorem error_bind (stop : Stop ξ ε) (f : α → Fallible ξ ε β) :
    (Except.error stop >>= f) = .error stop := rfl

/-! ## Returning -/

def Returns (m : Fallible ξ ε α) : Prop := ∃ a, m = .ok a

@[simp] theorem returns_pure (a : α) : Returns (pure a : Fallible ξ ε α) := ⟨a, rfl⟩

@[simp] theorem returns_ok (a : α) : Returns (.ok a : Fallible ξ ε α) := ⟨a, rfl⟩

@[simp] theorem not_returns_error (stop : Stop ξ ε) : ¬ Returns (.error stop : Fallible ξ ε α) :=
  nofun

@[simp] theorem not_returns_fail (error : ε) : ¬ Returns (fail error : Fallible ξ ε α) := nofun

@[simp] theorem not_returns_raise (exception : ξ) :
    ¬ Returns (raise exception : Fallible ξ ε α) :=
  nofun

theorem returns_guard {c : Prop} [Decidable c] {error : ε} {m : Fallible ξ ε α} :
    Returns (if c then fail error else m) ↔ ¬ c ∧ Returns m := by
  by_cases hc : c <;> simp [hc]

theorem returns_map {m : Fallible ξ ε α} {f : α → β} : Returns (f <$> m) ↔ Returns m := by
  cases m with
  | ok a => simp [Functor.map, Except.map]
  | error stop => simp [Functor.map, Except.map]

/-- Whether a second step returns may not depend on which value the first one returned. -/
theorem returns_bind {m : Fallible ξ ε α} {f : α → Fallible ξ ε β} {P : Prop}
    (hf : ∀ a, m = .ok a → (Returns (f a) ↔ P)) : Returns (m >>= f) ↔ Returns m ∧ P := by
  cases m with
  | ok a => simp [hf a rfl]
  | error stop => simp

theorem returns_bind_pure {m : Fallible ξ ε α} {f : α → β} :
    Returns (m >>= fun a => pure (f a)) ↔ Returns m := by
  cases m <;> simp

/-! ## Settling -/

/-- It reaches its caller, with a value or an error. -/
def Settles (m : Fallible ξ ε α) : Prop := Returns m ∨ ∃ error, m = fail error

theorem settles_pure (a : α) : Settles (pure a : Fallible ξ ε α) := .inl (returns_pure a)

theorem settles_fail (error : ε) : Settles (fail error : Fallible ξ ε α) := .inr ⟨error, rfl⟩

theorem settles_bind {m : Fallible ξ ε α} {f : α → Fallible ξ ε β} (hm : Settles m)
    (hf : ∀ a, Settles (f a)) : Settles (m >>= f) := by
  obtain ⟨a, rfl⟩ | ⟨error, rfl⟩ := hm
  · exact hf a
  · exact settles_fail error

theorem Settles.fails_iff {m : Fallible ξ ε α} (h : Settles m) :
    (∃ error, m = fail error) ↔ ¬ Returns m := by
  obtain ⟨a, rfl⟩ | ⟨error, rfl⟩ := h
  · refine iff_of_false ?_ (not_not_intro (returns_ok a))
    intro ⟨error, h⟩
    cases h
  · exact iff_of_true ⟨error, rfl⟩ (not_returns_fail error)

/-! ## Stopping -/

/-- It does not panic, raises only such exceptions, and is undefined only if `U`. -/
def Safe (P : ξ → Prop) (U : Prop) (m : Fallible ξ ε α) : Prop :=
  match m with
  | .error (.raised exception) => P exception
  | .error .panicked => False
  | .error .undefined => U
  | _ => True

section
variable {P Q : ξ → Prop} {U V : Prop}

theorem safe_pure (a : α) : Safe P U (pure a : Fallible ξ ε α) := trivial

theorem safe_fail (error : ε) : Safe P U (fail error : Fallible ξ ε α) := trivial

theorem safe_undefined (h : U) : Safe P U (undefined : Fallible ξ ε α) := h

theorem safe_raise {exception : ξ} (h : P exception) :
    Safe P U (raise exception : Fallible ξ ε α) := h

theorem safe_bind {m : Fallible ξ ε α} {f : α → Fallible ξ ε β} (hm : Safe P U m)
    (hf : ∀ a, m = .ok a → Safe P U (f a)) : Safe P U (m >>= f) := by
  cases m with
  | ok a => exact hf a rfl
  | error stop => cases stop <;> exact hm

theorem safe_map {m : Fallible ξ ε α} {f : α → β} (hm : Safe P U m) :
    Safe P U (m >>= fun a => pure (f a)) :=
  safe_bind hm fun _ _ => trivial

theorem safe_attempt {m : Fallible ξ ε α} (hm : Safe P U m) :
    Safe P U (attempt m : Fallible ξ ε' _) := by
  cases m with
  | ok a => trivial
  | error stop => cases stop <;> exact hm

theorem Safe.imp {m : Fallible ξ ε α} (hm : Safe P U m) (h : ∀ exception, P exception → Q exception)
    (hU : U → V) : Safe Q V m := by
  cases m with
  | ok a => trivial
  | error stop =>
    cases stop with
    | raised exception => exact h exception hm
    | undefined => exact hU hm
    | _ => exact hm

end

/-- A caller that passes every error on returns what the callee does. -/
theorem attempt_bind_eq_ok {m : Fallible ξ ε α} {f : Except ε α → Fallible ξ ε' α} {a : α}
    (hok : ∀ a, f (.ok a) = .ok a) (herror : ∀ error, ¬ Returns (f (.error error))) :
    (attempt m >>= f) = .ok a ↔ m = .ok a := by
  cases m with
  | ok a' => simp [hok]
  | error stop =>
    refine iff_of_false ?_ nofun
    cases stop with
    | error error => exact fun h => herror error ⟨a, h⟩
    | _ => exact nofun

end Fallible
end RustlyCore
