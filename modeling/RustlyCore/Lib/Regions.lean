import RustlyCore.Lib.Fallible
import RustlyCore.Lib.Memory

/-!
# Regions of a memory

From an address on a memory is closed where its cells refer to no cell before. A program that is
confined to such a region writes only there, keeps it closed, and leaves everything before as it is.
-/

namespace RustlyCore.Memory

variable {C : Type} {refs : C → List Nat} {n a : Nat} {c : C} {h h' : List C}

/-! ## Closed regions -/

/-- What cells from this address on refer to is from it on, too. -/
structure Region (refs : C → List Nat) (n : Nat) (h : List C) : Prop where
  here : n ≤ h.length
  closed : ∀ a c, n ≤ a → h[a]? = some c → ∀ b ∈ refs c, n ≤ b

/-- The region that is still empty. -/
theorem region_length (refs : C → List Nat) (h : List C) : Region refs h.length h := by
  refine ⟨Nat.le_refl _, ?_⟩
  intro a c ha hc
  exact absurd (lt_of_get hc) (Nat.not_lt.2 ha)

theorem Region.append (hr : Region refs n h) (hc : ∀ b ∈ refs c, n ≤ b) :
    Region refs n (h ++ [c]) := by
  constructor
  · rw [List.length_append]
    exact Nat.le_add_right_of_le hr.here
  · intro a d ha hd
    rcases Nat.lt_or_ge a h.length with hlt | hge
    · rw [List.getElem?_append_left hlt] at hd
      exact hr.closed a d ha hd
    · rw [List.getElem?_append_right hge, List.getElem?_singleton] at hd
      split at hd
      · cases hd
        exact hc
      · cases hd

theorem Region.set (hr : Region refs n h) (hc : ∀ b ∈ refs c, n ≤ b) :
    Region refs n (h.set a c) := by
  constructor
  · rw [List.length_set]
    exact hr.here
  · intro b d hb hd
    by_cases hab : a = b
    · subst hab
      rw [get_set ((List.length_set ▸ lt_of_get hd : a < h.length)) c] at hd
      cases hd
      exact hc
    · rw [List.getElem?_set_ne hab] at hd
      exact hr.closed b d hb hd

/-! ## Confined programs -/

variable {ξ ε α β : Type}

/-- From a memory with a region that is closed the program comes to another one, which differs from
it only there. -/
def Confined (refs : C → List Nat) (n : Nat) (m : StateT (List C) (Fallible ξ ε) α)
    (Q : α → Prop) : Prop :=
  ∀ h h' a, Region refs n h → m.run h = .ok (a, h') →
    Region refs n h' ∧ Keeps (· < n) h h' ∧ Q a

variable {m : StateT (List C) (Fallible ξ ε) α} {Q R : α → Prop}

theorem Confined.imp (hm : Confined refs n m Q) (hQ : ∀ a, Q a → R a) : Confined refs n m R := by
  intro h h' a hr hrun
  obtain ⟨hr', hk, hq⟩ := hm h h' a hr hrun
  exact ⟨hr', hk, hQ a hq⟩

theorem Confined.pure {a : α} (ha : Q a) :
    Confined refs n (Pure.pure a : StateT (List C) (Fallible ξ ε) α) Q := by
  intro h h' a' hr hrun
  cases hrun
  exact ⟨hr, .refl _ h, ha⟩

theorem Confined.bind {f : α → StateT (List C) (Fallible ξ ε) β} {R : β → Prop}
    (hm : Confined refs n m Q) (hf : ∀ a, Q a → Confined refs n (f a) R) :
    Confined refs n (m >>= f) R := by
  intro h h'' b hr hrun
  rw [StateT.run_bind] at hrun
  obtain ⟨⟨a, h'⟩, hfirst, hrest⟩ := Fallible.bind_eq_ok.1 hrun
  obtain ⟨hr', hk, hq⟩ := hm h h' a hr hfirst
  obtain ⟨hr'', hk', hb⟩ := hf a hq h' h'' b hr' hrest
  exact ⟨hr'', hk.trans hk', hb⟩

theorem Confined.map {f : α → β} {R : β → Prop} (hm : Confined refs n m Q)
    (hQ : ∀ a, Q a → R (f a)) : Confined refs n (f <$> m) R := by
  rw [map_eq_pure_bind]
  exact hm.bind fun a ha => .pure (hQ a ha)

/-- A computation that does not touch the memory. -/
theorem Confined.lift {t : Fallible ξ ε α} (ht : ∀ a, t = .ok a → Q a) :
    Confined refs n (StateT.lift t : StateT (List C) (Fallible ξ ε) α) Q := by
  intro h h' a hr hrun
  cases t with
  | ok a' =>
    cases hrun
    exact ⟨hr, .refl _ h, ht a rfl⟩
  | error stop => cases hrun

/-- What is read from the memory is closed. -/
theorem Confined.get_bind {f : List C → StateT (List C) (Fallible ξ ε) β} {R : β → Prop}
    (hf : ∀ h, Region refs n h → Confined refs n (f h) R) :
    Confined refs n (get >>= f) R := by
  intro h h' b hr hrun
  exact hf h hr h h' b hr hrun

/-- A cell of the region is replaced. -/
theorem Confined.set (ha : n ≤ a) (hc : ∀ b ∈ refs c, n ≤ b) :
    Confined refs n (modify (·.set a c) : StateT (List C) (Fallible ξ ε) Unit) fun _ => True := by
  intro h h' _ hr hrun
  cases hrun
  exact ⟨hr.set hc, (keeps_set h a c).mono fun b hb => Nat.ne_of_lt (Nat.lt_of_lt_of_le hb ha),
    trivial⟩

/-- A cell is added; its address is in the region. -/
theorem Confined.append {f : Nat → α} (hc : ∀ b ∈ refs c, n ≤ b) (hQ : ∀ a, n ≤ a → Q (f a)) :
    Confined refs n
      (modifyGet fun h => (f h.length, h ++ [c]) : StateT (List C) (Fallible ξ ε) α) Q := by
  intro h h' a hr hrun
  cases hrun
  exact ⟨hr.append hc, (keepsAll_append h [c]).keeps _, hQ _ hr.here⟩

/-- A loop. -/
theorem Confined.forM {f : β → StateT (List C) (Fallible ξ ε) Unit} {bs : List β}
    (hf : ∀ b ∈ bs, Confined refs n (f b) fun _ => True) :
    Confined refs n (bs.forM f) fun _ => True := by
  induction bs with
  | nil => exact .pure trivial
  | cons b bs ih =>
    obtain ⟨hb, hbs⟩ := List.forall_mem_cons.1 hf
    exact hb.bind fun _ _ => ih hbs

/-- From the end on, a confined program only adds. -/
theorem Confined.keepsAll {a : α} (hm : Confined refs h.length m Q) (hrun : m.run h = .ok (a, h')) :
    KeepsAll h h' ∧ Region refs h.length h' ∧ Q a := by
  obtain ⟨hr, hk, hq⟩ := hm h h' a (region_length refs h) hrun
  exact ⟨hk.all, hr, hq⟩

end RustlyCore.Memory
