import RustlyCore.Lib.Fallible

/-!
# Runs that simulate a value

A computation with a state is compared with one that has none: they stop alike, and if they return,
their values and the last state are related.
-/

namespace RustlyCore.Fallible

variable {σ ξ ε α α' β β' : Type} {s : σ}

/-- From this state the run ends as the stateless computation does. -/
def Simulates (s : σ) (m : StateT σ (Fallible ξ ε) β) (t : Fallible ξ ε α)
    (Q : α → β → σ → Prop) : Prop :=
  match t with
  | .ok a => ∃ b s', m.run s = .ok (b, s') ∧ Q a b s'
  | .error stop => m.run s = .error stop

variable {m : StateT σ (Fallible ξ ε) β} {t : Fallible ξ ε α} {Q R : α → β → σ → Prop}

theorem Simulates.pure {a : α} {b : β} (h : Q a b s) :
    Simulates s (Pure.pure b : StateT σ (Fallible ξ ε) β) (Pure.pure a) Q :=
  ⟨b, s, rfl, h⟩

/-- A computation that does not touch the state. -/
theorem Simulates.lift (t : Fallible ξ ε α) :
    Simulates s (StateT.lift t) t fun a b s' => b = a ∧ s' = s := by
  cases t with
  | ok a => exact ⟨a, s, rfl, rfl, rfl⟩
  | error stop => rfl

theorem Simulates.imp (h : Simulates s m t Q) (hQ : ∀ a b s', Q a b s' → R a b s') :
    Simulates s m t R := by
  cases t with
  | ok a =>
    obtain ⟨b, s', hrun, hq⟩ := h
    exact ⟨b, s', hrun, hQ a b s' hq⟩
  | error stop => exact h

theorem Simulates.with_ok (h : Simulates s m t Q) :
    Simulates s m t fun a b s' => t = .ok a ∧ Q a b s' := by
  cases t with
  | ok a =>
    obtain ⟨b, s', hrun, hq⟩ := h
    exact ⟨b, s', hrun, rfl, hq⟩
  | error stop => exact h

/-- What follows has to be simulated from the states in which the first part may end. -/
theorem Simulates.bind {f : β → StateT σ (Fallible ξ ε) β'} {g : α → Fallible ξ ε α'}
    {R : α' → β' → σ → Prop} (h : Simulates s m t Q)
    (hf : ∀ a b s', Q a b s' → Simulates s' (f b) (g a) R) :
    Simulates s (m >>= f) (t >>= g) R := by
  cases t with
  | ok a =>
    obtain ⟨b, s', hrun, hq⟩ := h
    have hrest := hf a b s' hq
    rw [ok_bind]
    unfold Simulates at hrest ⊢
    rw [StateT.run_bind, hrun, ok_bind]
    exact hrest
  | error stop =>
    have hrun : m.run s = .error stop := h
    change (m >>= f).run s = .error stop
    rw [StateT.run_bind, hrun, error_bind]

/-- What is computed from the value alone. -/
theorem Simulates.map {g : α → α'} {R : α' → β → σ → Prop} (h : Simulates s m t Q)
    (hR : ∀ a b s', Q a b s' → R (g a) b s') :
    Simulates s m (t >>= fun a => Pure.pure (g a)) R := by
  cases t with
  | ok a =>
    obtain ⟨b, s', hrun, hq⟩ := h
    exact ⟨b, s', hrun, hR a b s' hq⟩
  | error stop => exact h

/-- A step on the state alone. -/
theorem Simulates.step {f : β → StateT σ (Fallible ξ ε) β'} {R : α → β' → σ → Prop} {b : β} {s' : σ}
    (hm : m.run s = .ok (b, s')) (hf : Simulates s' (f b) t R) : Simulates s (m >>= f) t R := by
  unfold Simulates at hf ⊢
  rw [StateT.run_bind, hm, ok_bind]
  exact hf

/-- A run that returns was simulating a value. -/
theorem Simulates.returns (h : Simulates s m t Q) {b : β} {s' : σ} (hrun : m.run s = .ok (b, s')) :
    ∃ a, t = .ok a ∧ Q a b s' := by
  cases t with
  | ok a =>
    obtain ⟨b', s'', hrun', hq⟩ := h
    cases hrun.symm.trans hrun'
    exact ⟨a, rfl, hq⟩
  | error stop => cases hrun.symm.trans h

end RustlyCore.Fallible
