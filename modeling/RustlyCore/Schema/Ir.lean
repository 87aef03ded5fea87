import RustlyCore.Lib.Binary64
import RustlyCore.Lib.HashCons

/-!
# The schema IR (`schema/ir.rs`)

A compiled schema is an arena of nodes that refer to each other by id. The intern table hands out
one id for equal nodes. Node equality is the derived one: float bounds compare as `OrderedFloat`.
-/

namespace RustlyCore

structure NodeId where
  raw : UInt32
deriving DecidableEq, Repr

/-- The cast to `u32`; the source asserts `index < u32::MAX` in debug builds. -/
def NodeId.new (index : Nat) : NodeId := ⟨index.toUInt32⟩

def NodeId.index (id : NodeId) : Nat := id.raw.toNat

structure IntConstraints where
  min : Option Int64 := none
  max : Option Int64 := none
deriving DecidableEq

structure FloatConstraints where
  min : Option OrderedFloat := none
  max : Option OrderedFloat := none
deriving BEq

inductive StringFormat where
  | email
  | uuid
  | url
deriving DecidableEq

structure StringConstraints where
  minSize : Option Nat := none
  maxSize : Option Nat := none
  format : Option StringFormat := none
deriving DecidableEq

structure CollectionConstraints where
  minSize : Option Nat := none
  maxSize : Option Nat := none
deriving DecidableEq

inductive PrimitiveType where
  | any
  | bool
  | int (constraints : IntConstraints)
  | float (constraints : FloatConstraints)
  | string (constraints : StringConstraints)
  | symbol
deriving BEq

inductive ExtraBehavior where
  | forbid
  | ignore
  | allow
deriving DecidableEq

inductive StructFieldPresence where
  | required
  | optional
deriving DecidableEq

structure StructField where
  name : String
  presence : StructFieldPresence
  node : NodeId
deriving DecidableEq

inductive Node where
  | primitive (primitive : PrimitiveType)
  | enum (variants : List String)
  | optional (of : NodeId)
  | list (of : NodeId) (constraints : CollectionConstraints)
  | dict (value : NodeId) (constraints : CollectionConstraints)
  | struct (fields : List StructField) (extra : ExtraBehavior)
deriving BEq

/-- The ids inside a node. -/
def Node.children : Node → List NodeId
  | .primitive _ | .enum _ => []
  | .optional of | .list of _ => [of]
  | .dict value _ => [value]
  | .struct fields _ => fields.map (·.node)

structure SchemaArena where
  nodes : List Node := []

def SchemaArena.len (arena : SchemaArena) : Nat := arena.nodes.length

def SchemaArena.alloc (arena : SchemaArena) (node : Node) : NodeId × SchemaArena :=
  (NodeId.new arena.nodes.length, ⟨arena.nodes ++ [node]⟩)

/-- `none` is the panic of an index out of range. -/
def SchemaArena.get (arena : SchemaArena) (id : NodeId) : Option Node := arena.nodes[id.index]?

/-- The hash map from nodes to their ids. -/
structure InternTable where
  entries : List (Node × NodeId) := []

def InternTable.intern (table : InternTable) (arena : SchemaArena) (node : Node) :
    NodeId × InternTable × SchemaArena :=
  match HashCons.find? table.entries node with
  | some existing => (existing, table, arena)
  | none =>
    let (id, arena) := arena.alloc node
    (id, ⟨(node, id) :: table.entries⟩, arena)

/-! ## Closed schemas -/

/-- Every id inside a node points below the node. -/
def SchemaArena.Closed (arena : SchemaArena) : Prop :=
  HashCons.Closed NodeId.index Node.children arena.nodes

/-- An arena and its root. Only closed arenas make a schema, so no walk along ids loops or leaves
the arena. -/
structure SchemaIr where
  arena : SchemaArena
  root : NodeId
  closed : arena.Closed
  root_lt : root.index < arena.len

def SchemaIr.empty : SchemaIr where
  arena := ⟨[.primitive .any]⟩
  root := NodeId.new 0
  closed := HashCons.Closed.nil.concat (by simp [Node.children])
  root_lt := by decide

end RustlyCore
