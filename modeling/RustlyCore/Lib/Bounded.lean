import Mathlib.Data.Finset.Card
import Mathlib.Logic.Relation
import RustlyCore.Lib.Fallible

/-!
# Recursion of bounded depth

A recursive function that may not end is given for each depth of its stack: with enough depth it
returns or fails, otherwise the depth is exhausted. A walk along a relation that goes deeper than
there are sources goes round in a cycle, so more depth does not end it.
-/

namespace RustlyCore

/-- `none` if the depth is exhausted. -/
abbrev Bounded (ε α : Type) := ExceptT ε Option α

namespace Bounded

variable {ε ε' α β : Type}

def exhausted : Bounded ε α := ExceptT.mk none

/-- It has returned or failed. -/
def settled (t : Except ε α) : Bounded ε α := ExceptT.mk (some t)

theorem ok_bind (a : α) (f : α → Bounded ε β) : settled (.ok a) >>= f = f a := rfl

theorem error_bind (error : ε) (f : α → Bounded ε β) :
    settled (.error error) >>= f = settled (.error error) := rfl

theorem exhausted_bind (f : α → Bounded ε β) : exhausted >>= f = exhausted := rfl

theorem settled_bind (t : Except ε α) (f : α → Except ε β) :
    (settled t >>= fun a => settled (f a)) = settled (t >>= f) := by
  cases t <;> rfl

theorem settled_inj {t t' : Except ε α} : settled t = settled t' ↔ t = t' :=
  ⟨fun h => Option.some.inj h, congrArg settled⟩

theorem settled_ne_exhausted (t : Except ε α) : settled t ≠ exhausted :=
  fun h => Option.some_ne_none t h

/-- The outcome that a caller matches on. -/
def attempt {ξ ε ε' α : Type} (m : Bounded (Stop ξ ε) α) : Bounded (Stop ξ ε') (Except ε α) :=
  ExceptT.mk (m.run.map Fallible.attempt)

theorem attempt_settled {ξ ε ε' α : Type} (t : Fallible ξ ε α) :
    (attempt (settled t) : Bounded (Stop ξ ε') _) = settled (Fallible.attempt t) := rfl

/-- The three ways in which a computation ends. -/
theorem cases_on (m : Bounded ε α) :
    m = exhausted ∨ (∃ error, m = settled (.error error)) ∨ ∃ a, m = settled (.ok a) := by
  match m with
  | none => exact .inl rfl
  | some (.error error) => exact .inr (.inl ⟨error, rfl⟩)
  | some (.ok a) => exact .inr (.inr ⟨a, rfl⟩)

theorem bind_eq_ok {m : Bounded ε α} {f : α → Bounded ε β} {b : β} :
    m >>= f = settled (.ok b) ↔ ∃ a, m = settled (.ok a) ∧ f a = settled (.ok b) := by
  obtain rfl | ⟨error, rfl⟩ | ⟨a, rfl⟩ := cases_on m
  · rw [exhausted_bind]
    refine iff_of_false (settled_ne_exhausted _).symm ?_
    rintro ⟨a, ha, -⟩
    exact settled_ne_exhausted _ ha.symm
  · rw [error_bind]
    simp [settled_inj]
  · rw [ok_bind]
    simp [settled_inj]

theorem bind_eq_exhausted {m : Bounded ε α} {f : α → Bounded ε β} :
    m >>= f = exhausted ↔ m = exhausted ∨ ∃ a, m = settled (.ok a) ∧ f a = exhausted := by
  obtain rfl | ⟨error, rfl⟩ | ⟨a, rfl⟩ := cases_on m
  · simp [exhausted_bind]
  · simp [error_bind, settled_inj, settled_ne_exhausted]
  · simp [ok_bind, settled_inj, settled_ne_exhausted]

/-! ## More depth -/

/-- What the first computation says, the second says too. -/
def Below (m m' : Bounded ε α) : Prop := m = exhausted ∨ m = m'

theorem Below.refl (m : Bounded ε α) : Below m m := .inr rfl

theorem Below.trans {m m' m'' : Bounded ε α} (h : Below m m') (h' : Below m' m'') :
    Below m m'' := by
  obtain rfl | rfl := h
  · exact .inl rfl
  · exact h'

theorem Below.bind {m m' : Bounded ε α} {f f' : α → Bounded ε β} (h : Below m m')
    (hf : ∀ a, Below (f a) (f' a)) : Below (m >>= f) (m' >>= f') := by
  obtain rfl | rfl := h
  · exact .inl (exhausted_bind f)
  · obtain rfl | ⟨error, rfl⟩ | ⟨a, rfl⟩ := cases_on m
    · exact .inl (exhausted_bind f)
    · exact .inr rfl
    · exact hf a

theorem Below.eq_of_ne {m m' : Bounded ε α} (h : Below m m') (hm : m ≠ exhausted) : m' = m :=
  (h.resolve_left hm).symm

/-! ## The same apart from errors -/

/-- Both are exhausted, both fail, or both return the same value. -/
inductive Alike : Bounded ε α → Bounded ε' α → Prop
  | exhausted : Alike exhausted exhausted
  | error (error : ε) (error' : ε') : Alike (settled (.error error)) (settled (.error error'))
  | ok (a : α) : Alike (settled (.ok a)) (settled (.ok a))

theorem Alike.bind {m : Bounded ε α} {m' : Bounded ε' α} {f : α → Bounded ε β}
    {f' : α → Bounded ε' β} (h : Alike m m') (hf : ∀ a, Alike (f a) (f' a)) :
    Alike (m >>= f) (m' >>= f') := by
  cases h with
  | exhausted => exact .exhausted
  | error error error' => exact .error error error'
  | ok a => exact hf a

theorem Alike.ok_iff {m : Bounded ε α} {m' : Bounded ε' α} (h : Alike m m') {a : α} :
    m = settled (.ok a) ↔ m' = settled (.ok a) := by
  cases h with
  | exhausted => exact iff_of_false (settled_ne_exhausted _).symm (settled_ne_exhausted _).symm
  | error => simp [settled_inj]
  | ok => simp [settled_inj]

end Bounded

/-! ## Walks -/

section
variable {V : Type*} {Next : V → V → Prop} {v u : V}

/-- From here the relation can be followed for this many steps. -/
def Descends (Next : V → V → Prop) : Nat → V → Prop
  | 0, _ => True
  | n + 1, v => ∃ w, Next v w ∧ Descends Next n w

theorem Descends.walk {n : Nat} (h : Descends Next n v) :
    ∃ f : Nat → V, f 0 = v ∧ ∀ i < n, Next (f i) (f (i + 1)) := by
  induction n generalizing v with
  | zero => exact ⟨fun _ => v, rfl, fun i hi => absurd hi (Nat.not_lt_zero i)⟩
  | succ n ih =>
    obtain ⟨w, hw, hrest⟩ := h
    obtain ⟨f, rfl, hf⟩ := ih hrest
    refine ⟨fun i => Nat.casesOn i v f, rfl, ?_⟩
    intro i hi
    cases i with
    | zero => exact hw
    | succ i => exact hf i (Nat.lt_of_succ_lt_succ hi)

theorem reflTransGen_walk {f : Nat → V} {i j : Nat} (hle : i ≤ j)
    (hf : ∀ k < j, Next (f k) (f (k + 1))) : Relation.ReflTransGen Next (f i) (f j) := by
  induction j, hle using Nat.le_induction with
  | base => exact .refl
  | succ j hle ih =>
    exact (ih fun k hk => hf k (Nat.lt_succ_of_lt hk)).tail (hf j (Nat.lt_succ_self j))

theorem transGen_walk {f : Nat → V} {i j : Nat} (hlt : i < j)
    (hf : ∀ k < j, Next (f k) (f (k + 1))) : Relation.TransGen Next (f i) (f j) :=
  Relation.TransGen.head' (hf i hlt) (reflTransGen_walk hlt hf)

/-- From what leads into a cycle every number of steps can be made. -/
theorem descends_of_cycle (hcycle : Relation.TransGen Next u u)
    (hreach : Relation.ReflTransGen Next v u) (n : Nat) : Descends Next n v := by
  induction n generalizing v with
  | zero => trivial
  | succ n ih =>
    obtain rfl | ⟨w, hw, hrest⟩ := hreach.cases_head
    · obtain ⟨w, hw, hrest⟩ := Relation.TransGen.head'_iff.1 hcycle
      exact ⟨w, hw, ih hrest⟩
    · exact ⟨w, hw, ih hrest⟩

/-- More steps than there are sources lead into a cycle. -/
theorem Descends.cycle {n : Nat} (address : V → Nat)
    (hlt : ∀ v w, Next v w → address v < n)
    (hinj : ∀ v v' w w', Next v w → Next v' w' → address v = address v' → v = v')
    (h : Descends Next (n + 1) v) :
    ∃ u, Relation.ReflTransGen Next v u ∧ Relation.TransGen Next u u := by
  obtain ⟨f, rfl, hf⟩ := h.walk
  have hmaps : ∀ i ∈ Finset.range (n + 1), address (f i) ∈ Finset.range n := fun i hi =>
    Finset.mem_range.2 (hlt _ _ (hf i (Finset.mem_range.1 hi)))
  have hcard : (Finset.range n).card < (Finset.range (n + 1)).card := by
    rw [Finset.card_range, Finset.card_range]
    exact Nat.lt_succ_self n
  obtain ⟨i, hi, j, hj, hne, heq⟩ := Finset.exists_ne_map_eq_of_card_lt_of_maps_to hcard hmaps
  -- the two places are interchangeable, the earlier one comes first
  wlog hij : i < j generalizing i j
  · exact this j hj i hi hne.symm heq.symm (Nat.lt_of_le_of_ne (Nat.not_lt.1 hij) hne.symm)
  have hi' := Finset.mem_range.1 hi
  have hj' := Finset.mem_range.1 hj
  have hsame : f i = f j := hinj _ _ _ _ (hf i hi') (hf j hj') heq
  have hwalk := transGen_walk hij fun k hk => hf k (hk.trans hj')
  refine ⟨f i, reflTransGen_walk (Nat.zero_le i) fun k hk => hf k (hk.trans hi'), ?_⟩
  rw [← hsame] at hwalk
  exact hwalk

end
end RustlyCore
