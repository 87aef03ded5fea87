import Mathlib.Algebra.Group.Nat.Defs
import RustlyCore.Schema.Ir

/-!
# Building the schema IR (`schema/compiler.rs`)

`buildIr` turns a parsed type expression into an arena, interning every node it builds.
-/

namespace RustlyCore

structure FieldExpr (τ : Type) where
  name : String
  presence : StructFieldPresence
  ty : τ

inductive TypeExpr where
  | primitive (primitive : PrimitiveType)
  | enum (variants : List String)
  | optional (inner : TypeExpr)
  | list (of : TypeExpr) (constraints : CollectionConstraints)
  | dict (value : TypeExpr) (constraints : CollectionConstraints)
  | struct (fields : List (FieldExpr TypeExpr)) (extra : ExtraBehavior)

namespace TypeExpr

@[induction_eliminator]
theorem induct {motive : TypeExpr → Prop}
    (primitive : ∀ p, motive (.primitive p))
    (enum : ∀ variants, motive (.enum variants))
    (optional : ∀ inner, motive inner → motive (.optional inner))
    (list : ∀ of c, motive of → motive (.list of c))
    (dict : ∀ value c, motive value → motive (.dict value c))
    (struct : ∀ fields extra, (∀ f ∈ fields, motive f.ty) → motive (.struct fields extra))
    (e : TypeExpr) : motive e :=
  @TypeExpr.rec motive (fun fs => ∀ f ∈ fs, motive f.ty) (fun f => motive f.ty)
    primitive enum optional list dict struct
    (by simp) (fun _ _ h hs => List.forall_mem_cons.2 ⟨h, hs⟩) (fun _ _ _ h => h) e

mutual
/-- The number of nodes of the expression tree. -/
def nodeCount : TypeExpr → Nat
  | .primitive _ | .enum _ => 1
  | .optional inner => inner.nodeCount + 1
  | .list of _ => of.nodeCount + 1
  | .dict value _ => value.nodeCount + 1
  | .struct fields _ => fieldsCount fields + 1

def fieldsCount : List (FieldExpr TypeExpr) → Nat
  | [] => 0
  | ⟨_, _, ty⟩ :: fields => ty.nodeCount + fieldsCount fields
end

end TypeExpr

/-! ## The build -/

structure BuildState where
  arena : SchemaArena := {}
  intern : InternTable := {}

def internNode (node : Node) : StateM BuildState NodeId := do
  let st ← get
  let (id, intern, arena) := st.intern.intern st.arena node
  set (BuildState.mk arena intern)
  return id

mutual
def buildTypeExpr : TypeExpr → StateM BuildState NodeId
  | .primitive primitive => internNode (.primitive primitive)
  | .enum variants => internNode (.enum variants)
  | .optional inner => do
    let innerId ← buildTypeExpr inner
    internNode (.optional innerId)
  | .list of constraints => do
    let innerId ← buildTypeExpr of
    internNode (.list innerId constraints)
  | .dict value constraints => do
    let valueId ← buildTypeExpr value
    internNode (.dict valueId constraints)
  | .struct fields extra => do
    let structFields ← buildFields fields
    internNode (.struct structFields extra)

/-- The loop over the fields of a struct. -/
def buildFields : List (FieldExpr TypeExpr) → StateM BuildState (List StructField)
  | [] => return []
  | ⟨name, presence, ty⟩ :: fields => do
    let nodeId ← buildTypeExpr ty
    let structFields ← buildFields fields
    return ⟨name, presence, nodeId⟩ :: structFields
end

/-! ## Every build is closed

This needs no bound on the number of nodes: where the cast of an index to `u32` wraps, the id still
points below the node that is being built. -/

/-- The arena is closed and the table hands out ids of the arena. -/
structure BuildState.Closed (st : BuildState) : Prop where
  arena : st.arena.Closed
  table : ∀ entry ∈ st.intern.entries, entry.2.index < st.arena.len

/-- What a build step that returns `id` and ends in `st'` keeps. -/
structure BuildState.Step (st : BuildState) (id : NodeId) (st' : BuildState) : Prop where
  closed : st'.Closed
  len_le : st.arena.len ≤ st'.arena.len
  id_lt : id.index < st'.arena.len

theorem NodeId.index_new_le (n : Nat) : (NodeId.new n).index ≤ n := by
  simpa [NodeId.new, NodeId.index] using Nat.mod_le _ _

theorem NodeId.index_new {n : Nat} (h : n < 2 ^ 32) : (NodeId.new n).index = n := by
  simpa [NodeId.new, NodeId.index] using h

theorem internNode_eq (node : Node) (st : BuildState) :
    internNode node st = ((st.intern.intern st.arena node).1,
      ⟨(st.intern.intern st.arena node).2.2, (st.intern.intern st.arena node).2.1⟩) := rfl

/-- What interning does: it returns the id of an equal node, or appends the node. -/
theorem internNode_cases (node : Node) (st : BuildState) :
    (∃ id, HashCons.find? st.intern.entries node = some id ∧ internNode node st = (id, st)) ∨
    (HashCons.find? st.intern.entries node = none ∧
      internNode node st = (NodeId.new st.arena.len,
        ⟨⟨st.arena.nodes ++ [node]⟩, ⟨(node, NodeId.new st.arena.len) :: st.intern.entries⟩⟩)) := by
  cases h : HashCons.find? st.intern.entries node with
  | some id =>
    refine .inl ⟨id, rfl, ?_⟩
    rw [internNode_eq, InternTable.intern, h]
  | none =>
    refine .inr ⟨rfl, ?_⟩
    rw [internNode_eq, InternTable.intern, h]
    rfl

theorem internNode_step {node : Node} {st : BuildState} (H : st.Closed)
    (hc : ∀ c ∈ node.children, c.index < st.arena.len) :
    st.Step (internNode node st).1 (internNode node st).2 := by
  rcases internNode_cases node st with ⟨id, hfind, heq⟩ | ⟨-, heq⟩
  · obtain ⟨m, hm, -⟩ := HashCons.mem_of_find? hfind
    rw [heq]
    exact ⟨H, Nat.le_refl _, H.table _ hm⟩
  · have hlen : SchemaArena.len ⟨st.arena.nodes ++ [node]⟩ = st.arena.len + 1 := by
      simp [SchemaArena.len]
    have hid : (NodeId.new st.arena.len).index < st.arena.len + 1 :=
      Nat.lt_succ_of_le (NodeId.index_new_le _)
    rw [heq]
    refine ⟨⟨H.arena.concat hc, ?_⟩, ?_, ?_⟩
    · intro entry he
      rcases List.mem_cons.1 he with rfl | he
      · exact hlen ▸ hid
      · exact hlen ▸ Nat.lt_succ_of_lt (H.table _ he)
    · exact hlen ▸ Nat.le_succ _
    · exact hlen ▸ hid

/-- Building a part and then interning the node over it. -/
theorem BuildState.Step.intern {st st' : BuildState} {id : NodeId} {node : Node}
    (H : st.Step id st') (hc : ∀ c ∈ node.children, c.index < st'.arena.len) :
    st.Step (internNode node st').1 (internNode node st').2 := by
  have H' := internNode_step H.closed hc
  exact ⟨H'.closed, H.len_le.trans H'.len_le, H'.id_lt⟩

/-- The same for the loop over fields, given that each field's type steps. -/
theorem buildFields_step {fields : List (FieldExpr TypeExpr)}
    (ih : ∀ f ∈ fields, ∀ st : BuildState, st.Closed →
      st.Step (buildTypeExpr f.ty st).1 (buildTypeExpr f.ty st).2)
    (st : BuildState) (H : st.Closed) :
    (buildFields fields st).2.Closed ∧ st.arena.len ≤ (buildFields fields st).2.arena.len ∧
      ∀ f ∈ (buildFields fields st).1, f.node.index < (buildFields fields st).2.arena.len := by
  induction fields generalizing st with
  | nil => exact ⟨H, Nat.le_refl _, fun _ hg => absurd hg List.not_mem_nil⟩
  | cons f fields ihf =>
    have hf := ih f List.mem_cons_self st H
    obtain ⟨hclosed, hle, hlt⟩ :=
      ihf (fun g hg => ih g (List.mem_cons_of_mem _ hg)) _ hf.closed
    refine ⟨hclosed, hf.len_le.trans hle, ?_⟩
    intro g hg
    rcases List.mem_cons.1 hg with rfl | hg
    · exact Nat.lt_of_lt_of_le hf.id_lt hle
    · exact hlt g hg

theorem buildTypeExpr_step (e : TypeExpr) (st : BuildState) (H : st.Closed) :
    st.Step (buildTypeExpr e st).1 (buildTypeExpr e st).2 := by
  induction e generalizing st with
  | primitive | enum => exact internNode_step H (by simp [Node.children])
  | optional inner ih => exact (ih st H).intern (by simpa [Node.children] using (ih st H).id_lt)
  | list of c ih => exact (ih st H).intern (by simpa [Node.children] using (ih st H).id_lt)
  | dict value c ih => exact (ih st H).intern (by simpa [Node.children] using (ih st H).id_lt)
  | struct fields extra ih =>
    obtain ⟨hclosed, hle, hlt⟩ := buildFields_step ih st H
    have hc : ∀ c ∈ (Node.struct (buildFields fields st).1 extra).children,
        c.index < (buildFields fields st).2.arena.len := by simpa [Node.children] using hlt
    have H' := internNode_step hclosed hc
    exact ⟨H'.closed, hle.trans H'.len_le, H'.id_lt⟩

theorem BuildState.closed_empty : BuildState.Closed {} :=
  ⟨.nil, by simp⟩

/-- The result type of the source is `Result<SchemaIr, _>`, but no branch of the build fails. -/
def buildIr (root : TypeExpr) : SchemaIr where
  arena := (buildTypeExpr root {}).2.arena
  root := (buildTypeExpr root {}).1
  closed := (buildTypeExpr_step root {} BuildState.closed_empty).closed.arena
  root_lt := (buildTypeExpr_step root {} BuildState.closed_empty).id_lt

end RustlyCore
