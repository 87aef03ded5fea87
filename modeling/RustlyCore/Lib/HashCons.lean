import Mathlib.Data.List.Basic

/-!
# Hash-consing

A node store keeps each node once: a table maps a node to the id it was given, and a node is
appended to the store only when the table has no equal one. `Shared` is the joint invariant of
store and table. It is stated for any node type with an equivalence `==`, any id type read as a
position by `index`, and any function `children` that lists the ids inside a node.
-/

namespace RustlyCore.HashCons

variable {N I : Type*} {index : I → Nat} {children : N → List I} {nodes : List N} {n : N}

/-! ## Closed stores -/

/-- Every id inside the node stored at `k` points below `k`. -/
def Closed (index : I → Nat) (children : N → List I) (nodes : List N) : Prop :=
  ∀ ⦃k n⦄, nodes[k]? = some n → ∀ c ∈ children n, index c < k

/-- A position of a store with one more node is an old one or the last. -/
theorem getElem?_concat {k : Nat} {m : N} (h : (nodes ++ [n])[k]? = some m) :
    nodes[k]? = some m ∨ (k = nodes.length ∧ m = n) := by
  rcases Nat.lt_trichotomy k nodes.length with hk | rfl | hk
  · exact .inl (by rwa [List.getElem?_append_left hk] at h)
  · exact .inr ⟨rfl, by simpa using h.symm⟩
  · rw [List.getElem?_eq_none (by simp; omega)] at h
    cases h

theorem Closed.nil : Closed index children ([] : List N) := by
  intro k n h
  simp at h

theorem Closed.concat (H : Closed index children nodes)
    (hc : ∀ c ∈ children n, index c < nodes.length) :
    Closed index children (nodes ++ [n]) := by
  intro k m hm
  rcases getElem?_concat hm with hm | ⟨rfl, rfl⟩
  · exact H hm
  · exact hc

/-! ## Store and table -/

variable [BEq N] {table : List (N × I)} {i : I}

/-- The id the table holds for a node equal to `n`. -/
def find? (table : List (N × I)) (n : N) : Option I :=
  (table.find? fun entry => entry.1 == n).map (·.2)

theorem mem_of_find? (h : find? table n = some i) :
    ∃ m, (m, i) ∈ table ∧ (m == n) = true := by
  obtain ⟨⟨m, j⟩, hfind, rfl⟩ := Option.map_eq_some_iff.1 h
  have hbeq := List.find?_some hfind
  exact ⟨m, List.mem_of_find?_eq_some hfind, hbeq⟩

theorem beq_false_of_find? (h : find? table n = none) :
    ∀ entry ∈ table, ¬(entry.1 == n) = true :=
  List.find?_eq_none.1 (Option.map_eq_none_iff.1 h)

/-- The table is the inverse of the store, children are older than their parents, and no two
positions hold equal nodes. -/
structure Shared (index : I → Nat) (children : N → List I) (nodes : List N)
    (table : List (N × I)) : Prop where
  entry : ∀ ⦃n : N⦄ ⦃i : I⦄, (n, i) ∈ table → nodes[index i]? = some n
  listed : ∀ n ∈ nodes, ∃ i, (n, i) ∈ table
  closed : Closed index children nodes
  distinct : ∀ ⦃j k : Nat⦄ ⦃m n : N⦄, nodes[j]? = some m → nodes[k]? = some n →
    (m == n) = true → j = k

theorem Shared.nil : Shared index children ([] : List N) ([] : List (N × I)) where
  entry := by simp
  listed := by simp
  closed := .nil
  distinct := by simp

/-- A node found in the table is stored, up to `==`, under the id found. -/
theorem Shared.found (H : Shared index children nodes table) (h : find? table n = some i) :
    ∃ m, nodes[index i]? = some m ∧ (m == n) = true := by
  obtain ⟨m, hm, hbeq⟩ := mem_of_find? h
  exact ⟨m, H.entry hm, hbeq⟩

/-- Appending a node the table does not have, under the id of the next position. -/
theorem Shared.alloc [EquivBEq N] (H : Shared index children nodes table)
    (hmiss : find? table n = none) (hi : index i = nodes.length)
    (hc : ∀ c ∈ children n, index c < nodes.length) :
    Shared index children (nodes ++ [n]) ((n, i) :: table) where
  entry := by
    intro m j hm
    rcases List.mem_cons.1 hm with heq | hm
    · cases heq
      simp [hi]
    · have hlt := (List.getElem?_eq_some_iff.1 (H.entry hm)).1
      rw [List.getElem?_append_left hlt, H.entry hm]
  listed := by
    intro m hm
    rcases List.mem_append.1 hm with hm | hm
    · obtain ⟨j, hj⟩ := H.listed m hm
      exact ⟨j, List.mem_cons_of_mem _ hj⟩
    · cases List.mem_singleton.1 hm
      exact ⟨i, List.mem_cons_self⟩
  closed := H.closed.concat hc
  distinct := by
    have hnew : ∀ ⦃k m⦄, nodes[k]? = some m → ¬(m == n) = true := fun k m hm => by
      obtain ⟨j, hj⟩ := H.listed m (List.mem_of_getElem? hm)
      exact beq_false_of_find? hmiss _ hj
    intro j k m m' hj hk hbeq
    rcases getElem?_concat hj with hj' | ⟨rfl, rfl⟩ <;>
      rcases getElem?_concat hk with hk' | ⟨rfl, rfl⟩
    · exact H.distinct hj' hk' hbeq
    · exact (hnew hj' hbeq).elim
    · exact (hnew hk' (BEq.symm hbeq)).elim
    · rfl

end RustlyCore.HashCons
