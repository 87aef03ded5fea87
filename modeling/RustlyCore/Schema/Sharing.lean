import RustlyCore.Schema.Compiler

/-!
# Sharing in the arena

`SchemaArena.Denotes` says which expression an id stands for, `SchemaIr.unfold` reads it back, and
the invariant `HashCons.Shared` of arena and intern table is carried through the build. Expressions
are compared by `TypeExpr.Same`: structurally, float bounds as `OrderedFloat`.
-/

namespace RustlyCore

/-! ## Node equality -/

def FloatConstraints.ranks (c : FloatConstraints) :=
  (c.min.map (Binary64.rank ·.intoInner), c.max.map (Binary64.rank ·.intoInner))

theorem FloatConstraints.beq_iff {c d : FloatConstraints} :
    (c == d) = true ↔ c.ranks = d.ranks := by
  change (c.min == d.min && c.max == d.max) = true ↔ _
  rw [Bool.and_eq_true, OrderedFloat.option_beq_iff, OrderedFloat.option_beq_iff, ranks, ranks,
    Prod.mk.injEq]

theorem PrimitiveType.beq_float {c d : FloatConstraints} :
    (PrimitiveType.float c == .float d) = (c == d) := rfl

/-- Two primitive types are equal, or are float types with equal bounds. -/
theorem PrimitiveType.beq_iff {p q : PrimitiveType} : (p == q) = true ↔
    p = q ∨ ∃ c d, p = .float c ∧ q = .float d ∧ c.ranks = d.ranks := by
  cases p with
  | float c =>
    cases q with
    | float d =>
      rw [beq_float, FloatConstraints.beq_iff]
      refine ⟨fun h => .inr ⟨c, d, rfl, rfl, h⟩, ?_⟩
      rintro (heq | ⟨_, _, hc, hd, h⟩)
      · cases heq; rfl
      · cases hc; cases hd; exact h
    | _ => simp [BEq.beq, instBEqPrimitiveType.beq]
  | _ => cases q <;> simp [BEq.beq, instBEqPrimitiveType.beq]

instance : EquivBEq PrimitiveType where
  rfl := PrimitiveType.beq_iff.2 (.inl rfl)
  symm h := by
    rcases PrimitiveType.beq_iff.1 h with rfl | ⟨c, d, rfl, rfl, hcd⟩
    · exact h
    · exact PrimitiveType.beq_iff.2 (.inr ⟨d, c, rfl, rfl, hcd.symm⟩)
  trans h h' := by
    rcases PrimitiveType.beq_iff.1 h with rfl | ⟨c, d, rfl, rfl, hcd⟩
    · exact h'
    rcases PrimitiveType.beq_iff.1 h' with rfl | ⟨_, d', hd, rfl, hdd⟩
    · exact h
    · cases hd
      exact PrimitiveType.beq_iff.2 (.inr ⟨c, d', rfl, rfl, hcd.trans hdd⟩)

theorem Node.beq_primitive {p q : PrimitiveType} :
    (Node.primitive p == .primitive q) = (p == q) := rfl

/-- Two nodes are equal, or are primitives that compare equal. -/
theorem Node.beq_iff {m n : Node} : (m == n) = true ↔
    m = n ∨ ∃ p q, m = .primitive p ∧ n = .primitive q ∧ (p == q) = true := by
  have hlist : ∀ {α : Type} [BEq α] [LawfulBEq α] (as bs : List α), as.beq bs = true ↔ as = bs :=
    fun as bs => beq_iff_eq (a := as) (b := bs)
  cases m with
  | primitive p =>
    cases n with
    | primitive q =>
      rw [beq_primitive]
      refine ⟨fun h => .inr ⟨p, q, rfl, rfl, h⟩, ?_⟩
      rintro (heq | ⟨_, _, hp, hq, h⟩)
      · cases heq; exact BEq.rfl
      · cases hp; cases hq; exact h
    | _ => simp [BEq.beq, instBEqNode.beq]
  | _ => cases n <;> simp [BEq.beq, instBEqNode.beq, hlist]

instance : EquivBEq Node where
  rfl := Node.beq_iff.2 (.inl rfl)
  symm h := by
    rcases Node.beq_iff.1 h with rfl | ⟨p, q, rfl, rfl, hpq⟩
    · exact h
    · exact Node.beq_iff.2 (.inr ⟨q, p, rfl, rfl, BEq.symm hpq⟩)
  trans h h' := by
    rcases Node.beq_iff.1 h with rfl | ⟨p, q, rfl, rfl, hpq⟩
    · exact h'
    rcases Node.beq_iff.1 h' with rfl | ⟨_, q', hq, rfl, hqq⟩
    · exact h
    · cases hq
      exact Node.beq_iff.2 (.inr ⟨p, q', rfl, rfl, BEq.trans hpq hqq⟩)

/-! ## Equal expressions and sub-expressions -/

namespace TypeExpr

mutual
/-- Structural equality, float bounds compared as `OrderedFloat`. -/
def Same : TypeExpr → TypeExpr → Prop
  | .primitive p, .primitive q => (p == q) = true
  | .enum vs, .enum ws => vs = ws
  | .optional e, .optional e' => e.Same e'
  | .list e c, .list e' c' => e.Same e' ∧ c = c'
  | .dict e c, .dict e' c' => e.Same e' ∧ c = c'
  | .struct fs x, .struct fs' x' => SameFields fs fs' ∧ x = x'
  | _, _ => False

def SameFields : List (FieldExpr TypeExpr) → List (FieldExpr TypeExpr) → Prop
  | [], [] => True
  | ⟨n, p, e⟩ :: fs, ⟨n', p', e'⟩ :: fs' => n = n' ∧ p = p' ∧ e.Same e' ∧ SameFields fs fs'
  | _, _ => False
end

mutual
/-- All sub-expressions, the expression itself last. -/
def subexprs : TypeExpr → List TypeExpr
  | .primitive p => [.primitive p]
  | .enum vs => [.enum vs]
  | .optional e => e.subexprs ++ [.optional e]
  | .list e c => e.subexprs ++ [.list e c]
  | .dict e c => e.subexprs ++ [.dict e c]
  | .struct fs x => fieldsSubexprs fs ++ [.struct fs x]

def fieldsSubexprs : List (FieldExpr TypeExpr) → List TypeExpr
  | [] => []
  | ⟨_, _, e⟩ :: fs => e.subexprs ++ fieldsSubexprs fs
end

theorem mem_fieldsSubexprs {s : TypeExpr} {fs : List (FieldExpr TypeExpr)} :
    s ∈ fieldsSubexprs fs ↔ ∃ f ∈ fs, s ∈ f.ty.subexprs := by
  induction fs with
  | nil => simp [fieldsSubexprs]
  | cons f fs ih => simp [fieldsSubexprs, ih]

end TypeExpr

mutual
/-- The sub-expressions in the order the build meets them, each with the id it returns there. -/
def assigned : TypeExpr → BuildState → List (TypeExpr × NodeId)
  | .primitive p, st => [(.primitive p, (buildTypeExpr (.primitive p) st).1)]
  | .enum vs, st => [(.enum vs, (buildTypeExpr (.enum vs) st).1)]
  | .optional e, st => assigned e st ++ [(.optional e, (buildTypeExpr (.optional e) st).1)]
  | .list e c, st => assigned e st ++ [(.list e c, (buildTypeExpr (.list e c) st).1)]
  | .dict e c, st => assigned e st ++ [(.dict e c, (buildTypeExpr (.dict e c) st).1)]
  | .struct fs x, st =>
    assignedFields fs st ++ [(.struct fs x, (buildTypeExpr (.struct fs x) st).1)]

def assignedFields : List (FieldExpr TypeExpr) → BuildState → List (TypeExpr × NodeId)
  | [], _ => []
  | ⟨_, _, e⟩ :: fs, st => assigned e st ++ assignedFields fs (buildTypeExpr e st).2
end

theorem assignedFields_fst {fs : List (FieldExpr TypeExpr)}
    (ih : ∀ f ∈ fs, ∀ st, (assigned f.ty st).map (·.1) = f.ty.subexprs) (st : BuildState) :
    (assignedFields fs st).map (·.1) = TypeExpr.fieldsSubexprs fs := by
  induction fs generalizing st with
  | nil => rfl
  | cons f fs ihf =>
    have hf := ih f List.mem_cons_self st
    simp [assignedFields, TypeExpr.fieldsSubexprs, hf,
      ihf fun g hg => ih g (List.mem_cons_of_mem _ hg)]

theorem assigned_fst (e : TypeExpr) (st : BuildState) :
    (assigned e st).map (·.1) = e.subexprs := by
  induction e generalizing st with
  | primitive | enum => rfl
  | optional e ih => simp [assigned, TypeExpr.subexprs, ih]
  | list e c ih => simp [assigned, TypeExpr.subexprs, ih]
  | dict e c ih => simp [assigned, TypeExpr.subexprs, ih]
  | struct fs x ih => simp [assigned, TypeExpr.subexprs, assignedFields_fst ih]

/-! ## What an id stands for -/

namespace SchemaArena

mutual
/-- The node stands for the expression, its ids for the parts. -/
def Matches (arena : SchemaArena) : TypeExpr → Node → Prop
  | .primitive p, .primitive q => (q == p) = true
  | .enum vs, .enum ws => ws = vs
  | .optional e, .optional of => ∃ n, arena.get of = some n ∧ arena.Matches e n
  | .list e c, .list of d => (∃ n, arena.get of = some n ∧ arena.Matches e n) ∧ d = c
  | .dict e c, .dict of d => (∃ n, arena.get of = some n ∧ arena.Matches e n) ∧ d = c
  | .struct fs x, .struct gs y => arena.MatchesFields fs gs ∧ y = x
  | _, _ => False

def MatchesFields (arena : SchemaArena) : List (FieldExpr TypeExpr) → List StructField → Prop
  | [], [] => True
  | ⟨name, presence, e⟩ :: fs, g :: gs =>
    (g.name = name ∧ g.presence = presence) ∧ (∃ n, arena.get g.node = some n ∧ arena.Matches e n) ∧
      arena.MatchesFields fs gs
  | _, _ => False
end

/-- In `arena` the id stands for the expression. -/
def Denotes (arena : SchemaArena) (e : TypeExpr) (id : NodeId) : Prop :=
  ∃ n, arena.get id = some n ∧ arena.Matches e n

variable {arena arena' : SchemaArena} {e e' : TypeExpr} {fs fs' : List (FieldExpr TypeExpr)}
  {gs gs' : List StructField} {id id' : NodeId} {m n : Node}

theorem get_mono (h : arena.nodes <+: arena'.nodes) (hget : arena.get id = some n) :
    arena'.get id = some n := by
  obtain ⟨rest, hrest⟩ := h
  have hlt := (List.getElem?_eq_some_iff.1 hget).1
  rw [get, ← hrest, List.getElem?_append_left hlt]
  exact hget

theorem MatchesFields.mono (hpre : arena.nodes <+: arena'.nodes)
    (ih : ∀ f ∈ fs, ∀ {n}, arena.Matches f.ty n → arena'.Matches f.ty n)
    (h : arena.MatchesFields fs gs) : arena'.MatchesFields fs gs := by
  induction fs generalizing gs with
  | nil => cases gs <;> exact h
  | cons f fs ihf =>
    cases gs with
    | nil => exact h.elim
    | cons g gs =>
      obtain ⟨hhead, ⟨n, hget, hty⟩, hrest⟩ := h
      exact ⟨hhead, ⟨n, get_mono hpre hget, ih f List.mem_cons_self hty⟩,
        ihf (fun g hg => ih g (List.mem_cons_of_mem _ hg)) hrest⟩

theorem Matches.mono (hpre : arena.nodes <+: arena'.nodes) (h : arena.Matches e n) :
    arena'.Matches e n := by
  induction e generalizing n with
  | primitive | enum => cases n <;> exact h
  | optional e ih =>
    cases n with
    | optional of => exact let ⟨n, hget, hn⟩ := h; ⟨n, get_mono hpre hget, ih hn⟩
    | _ => exact h.elim
  | list e _ ih =>
    cases n with
    | list of d => exact let ⟨⟨n, hget, hn⟩, hc⟩ := h; ⟨⟨n, get_mono hpre hget, ih hn⟩, hc⟩
    | _ => exact h.elim
  | dict e _ ih =>
    cases n with
    | dict of d => exact let ⟨⟨n, hget, hn⟩, hc⟩ := h; ⟨⟨n, get_mono hpre hget, ih hn⟩, hc⟩
    | _ => exact h.elim
  | struct fs x ih =>
    cases n with
    | struct gs y => exact ⟨h.1.mono hpre ih, h.2⟩
    | _ => exact h.elim

/-- Growing the arena changes no meaning. -/
theorem Denotes.mono (hpre : arena.nodes <+: arena'.nodes) (h : arena.Denotes e id) :
    arena'.Denotes e id :=
  let ⟨n, hget, hn⟩ := h; ⟨n, get_mono hpre hget, hn.mono hpre⟩

theorem MatchesFields.same (ih : ∀ f ∈ fs, ∀ {e' n}, arena.Matches f.ty n → arena.Matches e' n →
    f.ty.Same e') (h : arena.MatchesFields fs gs) (h' : arena.MatchesFields fs' gs) :
    TypeExpr.SameFields fs fs' := by
  induction fs generalizing fs' gs with
  | nil => cases fs' with
    | nil => trivial
    | cons => cases gs <;> first | exact h.elim | exact h'.elim
  | cons f fs ihf =>
    cases gs with
    | nil => exact h.elim
    | cons g gs =>
      cases fs' with
      | nil => exact h'.elim
      | cons f' fs' =>
        obtain ⟨⟨hname, hpres⟩, ⟨n, hget, hty⟩, hrest⟩ := h
        obtain ⟨⟨hname', hpres'⟩, ⟨n', hget', hty'⟩, hrest'⟩ := h'
        cases hget.symm.trans hget'
        exact ⟨hname.symm.trans hname', hpres.symm.trans hpres', ih f List.mem_cons_self hty hty',
          ihf (fun g hg => ih g (List.mem_cons_of_mem _ hg)) hrest hrest'⟩

/-- A node stands for one expression. -/
theorem Matches.same (h : arena.Matches e n) (h' : arena.Matches e' n) : e.Same e' := by
  have hpart : ∀ {of : NodeId} {f f' : TypeExpr},
      (∀ {f' n}, arena.Matches f n → arena.Matches f' n → f.Same f') →
      (∃ n, arena.get of = some n ∧ arena.Matches f n) →
      (∃ n, arena.get of = some n ∧ arena.Matches f' n) → f.Same f' := by
    rintro of f f' ih ⟨n, hget, hn⟩ ⟨n', hget', hn'⟩
    cases hget.symm.trans hget'
    exact ih hn hn'
  induction e generalizing e' n with
  | primitive p =>
    cases n <;> cases e' <;> first | exact h.elim | exact h'.elim | exact BEq.trans (BEq.symm h) h'
  | enum vs => cases n <;> cases e' <;> first | exact h.elim | exact h'.elim | exact h.symm.trans h'
  | optional e ih =>
    cases n <;> cases e' <;> first | exact h.elim | exact h'.elim | exact hpart (f := e) ih h h'
  | list e c ih | dict e c ih =>
    cases n <;> cases e' <;>
      first | exact h.elim | exact h'.elim | exact ⟨hpart (f := e) ih h.1 h'.1, h.2.symm.trans h'.2⟩
  | struct fs x ih =>
    cases n <;> cases e' <;>
      first | exact h.elim | exact h'.elim | exact ⟨h.1.same ih h'.1, h.2.symm.trans h'.2⟩

/-- An id stands for one expression. -/
theorem Denotes.same (h : arena.Denotes e id) (h' : arena.Denotes e' id) : e.Same e' := by
  obtain ⟨n, hget, hn⟩ := h
  obtain ⟨n', hget', hn'⟩ := h'
  cases hget.symm.trans hget'
  exact hn.same hn'

theorem MatchesFields.congr (ih : ∀ f ∈ fs, ∀ {e' n}, f.ty.Same e' → arena.Matches f.ty n →
    arena.Matches e' n) (hs : TypeExpr.SameFields fs fs') (h : arena.MatchesFields fs gs) :
    arena.MatchesFields fs' gs := by
  induction fs generalizing fs' gs with
  | nil => cases fs' with
    | nil => exact h
    | cons => exact hs.elim
  | cons f fs ihf =>
    cases gs with
    | nil => exact h.elim
    | cons g gs =>
      cases fs' with
      | nil => exact hs.elim
      | cons f' fs' =>
        obtain ⟨⟨hname, hpres⟩, ⟨n, hget, hty⟩, hrest⟩ := h
        obtain ⟨hname', hpres', hty', hrest'⟩ := hs
        exact ⟨⟨hname.trans hname', hpres.trans hpres'⟩,
          ⟨n, hget, ih f List.mem_cons_self hty' hty⟩,
          ihf (fun g hg => ih g (List.mem_cons_of_mem _ hg)) hrest' hrest⟩

theorem Matches.congr (hs : e.Same e') (h : arena.Matches e n) : arena.Matches e' n := by
  induction e generalizing e' n with
  | primitive p =>
    cases n <;> cases e' <;> first | exact h.elim | exact hs.elim | exact BEq.trans h hs
  | enum vs => cases n <;> cases e' <;> first | exact h.elim | exact hs.elim | exact h.trans hs
  | optional e ih =>
    cases n <;> cases e' <;> first | exact h.elim | exact hs.elim | skip
    exact let ⟨n, hget, hn⟩ := h; ⟨n, hget, ih hs hn⟩
  | list e c ih | dict e c ih =>
    cases n <;> cases e' <;> first | exact h.elim | exact hs.elim | skip
    exact let ⟨⟨n, hget, hn⟩, hc⟩ := h; ⟨⟨n, hget, ih hs.1 hn⟩, hc.trans hs.2⟩
  | struct fs x ih =>
    cases n <;> cases e' <;> first | exact h.elim | exact hs.elim | skip
    exact ⟨h.1.congr ih hs.1, h.2.trans hs.2⟩

theorem Denotes.congr (hs : e.Same e') (h : arena.Denotes e id) : arena.Denotes e' id :=
  let ⟨n, hget, hn⟩ := h; ⟨n, hget, hn.congr hs⟩

theorem index_inj (h : id.index = id'.index) : id = id' := by
  cases id; cases id'
  exact congrArg NodeId.mk (UInt32.toNat_inj.1 h)

theorem MatchesFields.unique
    (ih : ∀ f ∈ fs, ∀ {i j}, arena.Denotes f.ty i → arena.Denotes f.ty j → i = j)
    (h : arena.MatchesFields fs gs) (h' : arena.MatchesFields fs gs') : gs = gs' := by
  induction fs generalizing gs gs' with
  | nil => cases gs <;> cases gs' <;> first | rfl | exact h.elim | exact h'.elim
  | cons f fs ihf =>
    cases gs with
    | nil => exact h.elim
    | cons g gs =>
      cases gs' with
      | nil => exact h'.elim
      | cons g' gs' =>
        obtain ⟨⟨hname, hpres⟩, hty, hrest⟩ := h
        obtain ⟨⟨hname', hpres'⟩, hty', hrest'⟩ := h'
        have hnode := ih f List.mem_cons_self hty hty'
        have htail := ihf (fun g hg => ih g (List.mem_cons_of_mem _ hg)) hrest hrest'
        cases g; cases g'
        cases hname; cases hname'; cases hpres; cases hpres'; cases hnode; cases htail
        rfl

section
variable {table : List (Node × NodeId)}
  (H : HashCons.Shared NodeId.index Node.children arena.nodes table)
include H

/-- Where no two positions hold equal nodes, an id is found from the nodes of its expression. -/
theorem unique_of_matches (ih : ∀ {m n}, arena.Matches e m → arena.Matches e n → (m == n) = true)
    (h : arena.Denotes e id) (h' : arena.Denotes e id') : id = id' := by
  obtain ⟨m, hget, hm⟩ := h
  obtain ⟨n, hget', hn⟩ := h'
  exact index_inj (H.distinct hget hget' (ih hm hn))

theorem Matches.beq (hm : arena.Matches e m) (hn : arena.Matches e n) : (m == n) = true := by
  induction e generalizing m n with
  | primitive p =>
    cases m <;> cases n <;> first | exact hm.elim | exact hn.elim | skip
    exact BEq.trans (α := PrimitiveType) hm (BEq.symm hn)
  | enum vs =>
    cases m <;> cases n <;> first | exact hm.elim | exact hn.elim | skip
    cases hm; cases hn
    exact BEq.rfl
  | optional e ih =>
    cases m <;> cases n <;> first | exact hm.elim | exact hn.elim | skip
    cases unique_of_matches H (e := e) ih hm hn
    exact BEq.rfl
  | list e c ih | dict e c ih =>
    cases m <;> cases n <;> first | exact hm.elim | exact hn.elim | skip
    cases unique_of_matches H (e := e) ih hm.1 hn.1
    cases hm.2; cases hn.2
    exact BEq.rfl
  | struct fs x ih =>
    cases m <;> cases n <;> first | exact hm.elim | exact hn.elim | skip
    cases hm.1.unique (fun f hf => unique_of_matches H (ih f hf)) hn.1
    cases hm.2; cases hn.2
    exact BEq.rfl

theorem Denotes.unique (h : arena.Denotes e id) (h' : arena.Denotes e id') : id = id' :=
  unique_of_matches H (Matches.beq H) h h'

end

theorem MatchesFields.mem (h : arena.MatchesFields fs gs) {f : FieldExpr TypeExpr} (hf : f ∈ fs) :
    ∃ g ∈ gs, arena.Denotes f.ty g.node := by
  induction fs generalizing gs with
  | nil => simp at hf
  | cons f' fs ih =>
    cases gs with
    | nil => exact h.elim
    | cons g gs =>
      rcases List.mem_cons.1 hf with rfl | hf
      · exact ⟨g, List.mem_cons_self, h.2.1⟩
      · obtain ⟨g', hg', hden⟩ := ih h.2.2 hf
        exact ⟨g', List.mem_cons_of_mem _ hg', hden⟩

theorem MatchesFields.node_lt (h : arena.MatchesFields fs gs) {g : StructField} (hg : g ∈ gs) :
    g.node.index < arena.len := by
  induction fs generalizing gs with
  | nil => cases gs with
    | nil => simp at hg
    | cons => exact h.elim
  | cons f fs ih =>
    cases gs with
    | nil => exact h.elim
    | cons g' gs =>
      rcases List.mem_cons.1 hg with rfl | hg
      · obtain ⟨_, hget, -⟩ := h.2.1
        exact (List.getElem?_eq_some_iff.1 hget).1
      · exact ih h.2.2 hg

/-- In a closed arena every sub-expression has an id that is not above the one of the whole. -/
theorem Denotes.sub (hclosed : arena.Closed) (h : arena.Denotes e id) {s : TypeExpr}
    (hs : s ∈ e.subexprs) : ∃ i, i.index ≤ id.index ∧ arena.Denotes s i := by
  have hpart : ∀ {id of n f}, arena.get id = some n → of ∈ n.children → arena.Denotes f of →
      (∀ {id}, arena.Denotes f id → s ∈ f.subexprs → ∃ i, i.index ≤ id.index ∧ arena.Denotes s i) →
      s ∈ f.subexprs → ∃ i, i.index ≤ id.index ∧ arena.Denotes s i := by
    intro id of n f hget hof hden ih hs
    obtain ⟨i, hle, hi⟩ := ih hden hs
    exact ⟨i, hle.trans (Nat.le_of_lt (hclosed hget of hof)), hi⟩
  induction e generalizing id with
  | primitive | enum =>
    cases List.mem_singleton.1 hs
    exact ⟨id, Nat.le_refl _, h⟩
  | optional e ih | list e _ ih | dict e _ ih =>
    rcases List.mem_append.1 hs with hs | hs
    · obtain ⟨n, hget, hn⟩ := h
      cases n <;> first | exact hn.elim | skip
      first
        | exact hpart (f := e) hget List.mem_cons_self hn ih hs
        | exact hpart (f := e) hget List.mem_cons_self hn.1 ih hs
    · cases List.mem_singleton.1 hs
      exact ⟨id, Nat.le_refl _, h⟩
  | struct fs x ih =>
    rcases List.mem_append.1 hs with hs | hs
    · obtain ⟨n, hget, hn⟩ := h
      cases n <;> first | exact hn.elim | skip
      obtain ⟨f, hf, hs⟩ := TypeExpr.mem_fieldsSubexprs.1 hs
      obtain ⟨g, hg, hden⟩ := hn.1.mem hf
      exact hpart hget (List.mem_map.2 ⟨g, hg, rfl⟩) hden (ih f hf) hs
    · cases List.mem_singleton.1 hs
      exact ⟨id, Nat.le_refl _, h⟩

end SchemaArena

/-! ## Reading an id back -/

/-- The expression under an id of the schema; an id outside the arena reads as `any`. -/
def SchemaIr.unfold (ir : SchemaIr) (id : NodeId) : TypeExpr :=
  match _h : ir.arena.get id with
  | some (.primitive p) => .primitive p
  | some (.enum variants) => .enum variants
  | some (.optional of) => .optional (ir.unfold of)
  | some (.list of c) => .list (ir.unfold of) c
  | some (.dict value c) => .dict (ir.unfold value) c
  | some (.struct fields extra) =>
    .struct (fields.attach.map fun ⟨f, _⟩ => ⟨f.name, f.presence, ir.unfold f.node⟩) extra
  | none => .primitive .any
termination_by id.index
decreasing_by
  case _ => exact ir.closed _h of List.mem_cons_self
  case _ => exact ir.closed _h of List.mem_cons_self
  case _ => exact ir.closed _h value List.mem_cons_self
  case _ hf => exact ir.closed _h _ (List.mem_map.2 ⟨f, hf, rfl⟩)

/-- The expression over a node, from those over its ids. -/
def Node.expand (u : NodeId → TypeExpr) : Node → TypeExpr
  | .primitive p => .primitive p
  | .enum variants => .enum variants
  | .optional of => .optional (u of)
  | .list of c => .list (u of) c
  | .dict value c => .dict (u value) c
  | .struct fields extra => .struct (fields.map fun f => ⟨f.name, f.presence, u f.node⟩) extra

theorem SchemaIr.unfold_of_get {ir : SchemaIr} {id : NodeId} {n : Node}
    (h : ir.arena.get id = some n) : ir.unfold id = n.expand ir.unfold := by
  rw [unfold]
  split <;> rename_i heq <;> cases h.symm.trans heq <;> simp [Node.expand]

theorem SchemaArena.MatchesFields.expand {arena : SchemaArena} {u : NodeId → TypeExpr}
    {gs : List StructField} (h : ∀ g ∈ gs, arena.Denotes (u g.node) g.node) :
    arena.MatchesFields (gs.map fun g => ⟨g.name, g.presence, u g.node⟩) gs := by
  induction gs with
  | nil => trivial
  | cons g gs ih =>
    exact ⟨⟨rfl, rfl⟩, h g List.mem_cons_self, ih fun g hg => h g (List.mem_cons_of_mem _ hg)⟩

theorem SchemaArena.Matches.expand {arena : SchemaArena} {u : NodeId → TypeExpr} {n : Node}
    (h : ∀ c ∈ n.children, arena.Denotes (u c) c) : arena.Matches (n.expand u) n := by
  cases n with
  | primitive p => exact BEq.rfl (α := PrimitiveType)
  | enum vs => rfl
  | optional of => exact h of List.mem_cons_self
  | list of c | dict of c => exact ⟨h of List.mem_cons_self, rfl⟩
  | struct gs x => exact ⟨.expand fun g hg => h _ (List.mem_map.2 ⟨g, hg, rfl⟩), rfl⟩

theorem SchemaIr.unfold_denotes (ir : SchemaIr) {id : NodeId} (h : id.index < ir.arena.len) :
    ir.arena.Denotes (ir.unfold id) id := by
  induction hk : id.index using Nat.strong_induction_on generalizing id with
  | _ k ih =>
    obtain ⟨n, hget⟩ : ∃ n, ir.arena.get id = some n := ⟨_, List.getElem?_eq_getElem h⟩
    refine ⟨n, hget, ir.unfold_of_get hget ▸ .expand ?_⟩
    intro c hc
    have hlt := ir.closed hget c hc
    exact ih _ (hk ▸ hlt) (hlt.trans h) rfl

/-! ## The build shares -/

/-- The joint invariant of arena and intern table. -/
def BuildState.Shared (st : BuildState) : Prop :=
  HashCons.Shared NodeId.index Node.children st.arena.nodes st.intern.entries

/-- What a part of the build keeps: it hands out `ids` to expressions, each id stands for its
expression, and every node that is appended got one of the ids. -/
structure BuildState.Builds (st : BuildState) (ids : List (TypeExpr × NodeId)) (st' : BuildState) :
    Prop where
  shared : st'.Shared
  grows : st.arena.nodes <+: st'.arena.nodes
  denotes : ∀ p ∈ ids, st'.arena.Denotes p.1 p.2
  new : ∀ k, st.arena.len ≤ k → k < st'.arena.len → ∃ p ∈ ids, p.2.index = k

namespace BuildState.Builds
variable {st st' st'' : BuildState} {ids ids' : List (TypeExpr × NodeId)}

theorem refl (H : st.Shared) : st.Builds [] st :=
  ⟨H, List.prefix_rfl, by simp, fun k hle hlt => absurd hle (Nat.not_le_of_lt hlt)⟩

theorem trans (h : st.Builds ids st') (h' : st'.Builds ids' st'') :
    st.Builds (ids ++ ids') st'' where
  shared := h'.shared
  grows := h.grows.trans h'.grows
  denotes p hp := by
    rcases List.mem_append.1 hp with hp | hp
    · exact (h.denotes p hp).mono h'.grows
    · exact h'.denotes p hp
  new k hle hlt := by
    rcases Nat.lt_or_ge k st'.arena.len with hk | hk
    · obtain ⟨p, hp, hpk⟩ := h.new k hle hk
      exact ⟨p, List.mem_append_left _ hp, hpk⟩
    · obtain ⟨p, hp, hpk⟩ := h'.new k hk hlt
      exact ⟨p, List.mem_append_right _ hp, hpk⟩

end BuildState.Builds

theorem SchemaArena.Matches.of_beq {arena : SchemaArena} {e : TypeExpr} {m n : Node}
    (hbeq : (m == n) = true) (h : arena.Matches e n) : arena.Matches e m := by
  rcases Node.beq_iff.1 hbeq with rfl | ⟨p, q, rfl, rfl, hpq⟩
  · exact h
  · cases e <;> first | exact h.elim | exact BEq.trans (α := PrimitiveType) hpq h

theorem SchemaArena.Denotes.lt {arena : SchemaArena} {e : TypeExpr} {id : NodeId}
    (h : arena.Denotes e id) : id.index < arena.len :=
  let ⟨_, hget, _⟩ := h; (List.getElem?_eq_some_iff.1 hget).1

/-- Interning the node over parts that are already in the arena. -/
theorem internNode_builds {e : TypeExpr} {node : Node} {st : BuildState} (H : st.Shared)
    (hlen : (internNode node st).2.arena.len ≤ 2 ^ 32)
    (hc : ∀ c ∈ node.children, c.index < st.arena.len)
    (he : st.arena.Matches e node) :
    st.Builds [(e, (internNode node st).1)] (internNode node st).2 := by
  rcases internNode_cases node st with ⟨id, hfind, heq⟩ | ⟨hmiss, heq⟩
  · obtain ⟨m, hget, hbeq⟩ := H.found hfind
    rw [heq]
    refine ⟨H, List.prefix_rfl, fun p hp => ?_,
      fun k hle hlt => absurd hle (Nat.not_le_of_lt hlt)⟩
    cases List.mem_singleton.1 hp
    exact ⟨m, hget, he.of_beq hbeq⟩
  · have hlt : st.arena.len < 2 ^ 32 := by
      simp only [heq, SchemaArena.len, List.length_append, List.length_singleton] at hlen ⊢
      omega
    have hid : (NodeId.new st.arena.len).index = st.arena.nodes.length := NodeId.index_new hlt
    rw [heq]
    refine ⟨H.alloc hmiss hid hc, List.prefix_append _ _, ?_, ?_⟩
    · intro p hp
      cases List.mem_singleton.1 hp
      exact ⟨node, by simp [SchemaArena.get, hid], he.mono (List.prefix_append _ _)⟩
    · intro k hle hlt
      refine ⟨_, List.mem_singleton_self _, ?_⟩
      simp only [SchemaArena.len, List.length_append, List.length_singleton] at hle hlt
      change (NodeId.new st.arena.len).index = k
      omega

theorem internNode_grows (node : Node) (st : BuildState) :
    st.arena.nodes <+: (internNode node st).2.arena.nodes := by
  rcases internNode_cases node st with ⟨id, -, heq⟩ | ⟨-, heq⟩
  · simp only [heq, List.prefix_rfl]
  · simp only [heq, List.prefix_append]

theorem buildFields_grows {fs : List (FieldExpr TypeExpr)}
    (ih : ∀ f ∈ fs, ∀ st, st.arena.nodes <+: (buildTypeExpr f.ty st).2.arena.nodes)
    (st : BuildState) : st.arena.nodes <+: (buildFields fs st).2.arena.nodes := by
  induction fs generalizing st with
  | nil => exact List.prefix_rfl
  | cons f fs ihf =>
    exact (ih f List.mem_cons_self st).trans (ihf (fun g hg => ih g (List.mem_cons_of_mem _ hg)) _)

/-- The build only appends. -/
theorem buildTypeExpr_grows (e : TypeExpr) (st : BuildState) :
    st.arena.nodes <+: (buildTypeExpr e st).2.arena.nodes := by
  induction e generalizing st with
  | primitive | enum => exact internNode_grows _ st
  | optional e ih | list e _ ih | dict e _ ih => exact (ih st).trans (internNode_grows _ _)
  | struct fs x ih => exact (buildFields_grows ih st).trans (internNode_grows _ _)

theorem mem_assigned (e : TypeExpr) (st : BuildState) :
    (e, (buildTypeExpr e st).1) ∈ assigned e st := by
  cases e <;> simp [assigned]

/-- Building one part and interning the node over its id. -/
theorem BuildState.Builds.wrap {st st' : BuildState} {ids : List (TypeExpr × NodeId)}
    (h : st.Builds ids st') {e : TypeExpr} {node : Node}
    (hlen : (internNode node st').2.arena.len ≤ 2 ^ 32)
    (hc : ∀ c ∈ node.children, c.index < st'.arena.len)
    (he : st'.arena.Matches e node) :
    st.Builds (ids ++ [(e, (internNode node st').1)]) (internNode node st').2 :=
  h.trans (internNode_builds h.shared hlen hc he)

theorem buildFields_builds {fs : List (FieldExpr TypeExpr)}
    (ih : ∀ f ∈ fs, ∀ st : BuildState, st.Shared → (buildTypeExpr f.ty st).2.arena.len ≤ 2 ^ 32 →
      st.Builds (assigned f.ty st) (buildTypeExpr f.ty st).2)
    {st : BuildState} (H : st.Shared) (hlen : (buildFields fs st).2.arena.len ≤ 2 ^ 32) :
    st.Builds (assignedFields fs st) (buildFields fs st).2 ∧
      (buildFields fs st).2.arena.MatchesFields fs (buildFields fs st).1 := by
  induction fs generalizing st with
  | nil => exact ⟨.refl H, trivial⟩
  | cons f fs ihf =>
    have hgrows : (buildTypeExpr f.ty st).2.arena.nodes <+:
        (buildFields (f :: fs) st).2.arena.nodes :=
      buildFields_grows (fun g _ => buildTypeExpr_grows g.ty) _
    have hf := ih f List.mem_cons_self st H (hgrows.length_le.trans hlen)
    obtain ⟨hrest, hmatch⟩ := ihf (fun g hg => ih g (List.mem_cons_of_mem _ hg)) hf.shared hlen
    have hden := (hf.denotes _ (mem_assigned f.ty st)).mono hrest.grows
    exact ⟨hf.trans hrest, ⟨rfl, rfl⟩, hden, hmatch⟩

theorem buildTypeExpr_builds (e : TypeExpr) {st : BuildState} (H : st.Shared)
    (hlen : (buildTypeExpr e st).2.arena.len ≤ 2 ^ 32) :
    st.Builds (assigned e st) (buildTypeExpr e st).2 := by
  induction e generalizing st with
  | primitive p =>
    exact internNode_builds H hlen (by simp [Node.children]) (BEq.rfl (α := PrimitiveType))
  | enum vs => exact internNode_builds H hlen (by simp [Node.children]) rfl
  | optional e ih =>
    have h := ih H ((internNode_grows _ _).length_le.trans hlen)
    have hden := h.denotes _ (mem_assigned e st)
    exact h.wrap hlen (by simpa [Node.children] using hden.lt) hden
  | list e c ih =>
    have h := ih H ((internNode_grows _ _).length_le.trans hlen)
    have hden := h.denotes _ (mem_assigned e st)
    exact h.wrap hlen (by simpa [Node.children] using hden.lt) ⟨hden, rfl⟩
  | dict e c ih =>
    have h := ih H ((internNode_grows _ _).length_le.trans hlen)
    have hden := h.denotes _ (mem_assigned e st)
    exact h.wrap hlen (by simpa [Node.children] using hden.lt) ⟨hden, rfl⟩
  | struct fs x ih =>
    obtain ⟨h, hmatch⟩ := buildFields_builds (fun f hf st => ih f hf) H
      ((internNode_grows _ _).length_le.trans hlen)
    refine h.wrap hlen (?_) ⟨hmatch, rfl⟩
    intro c hc
    obtain ⟨g, hg, rfl⟩ := List.mem_map.1 hc
    exact hmatch.node_lt hg

/-! ## At most one node for each node of the expression -/

theorem internNode_len_le (node : Node) (st : BuildState) :
    (internNode node st).2.arena.len ≤ st.arena.len + 1 := by
  rcases internNode_cases node st with ⟨id, -, heq⟩ | ⟨-, heq⟩ <;> rw [heq] <;>
    simp [SchemaArena.len]

theorem buildFields_len_le {fs : List (FieldExpr TypeExpr)}
    (ih : ∀ f ∈ fs, ∀ st, (buildTypeExpr f.ty st).2.arena.len ≤ st.arena.len + f.ty.nodeCount)
    (st : BuildState) :
    (buildFields fs st).2.arena.len ≤ st.arena.len + TypeExpr.fieldsCount fs := by
  induction fs generalizing st with
  | nil => exact Nat.le_refl _
  | cons f fs ihf =>
    have hf := ih f List.mem_cons_self st
    have hfs : (buildFields (f :: fs) st).2.arena.len ≤ _ :=
      ihf (fun g hg => ih g (List.mem_cons_of_mem _ hg)) (buildTypeExpr f.ty st).2
    rw [TypeExpr.fieldsCount]
    omega

theorem buildTypeExpr_len_le (e : TypeExpr) (st : BuildState) :
    (buildTypeExpr e st).2.arena.len ≤ st.arena.len + e.nodeCount := by
  induction e generalizing st with
  | primitive | enum => exact internNode_len_le _ st
  | optional e ih | list e _ ih | dict e _ ih =>
    exact (internNode_len_le _ (buildTypeExpr e st).2).trans (Nat.succ_le_succ (ih st))
  | struct fs x ih =>
    exact (internNode_len_le _ (buildFields fs st).2).trans
      (Nat.succ_le_succ (buildFields_len_le ih st))

/-- Where ids do not wrap, the root stands for the expression. The source asserts the bound in debug
builds. -/
theorem buildIr_unfold {e : TypeExpr} (h : (buildIr e).arena.len ≤ 2 ^ 32) :
    ((buildIr e).unfold (buildIr e).root).Same e ∧
      e.Same ((buildIr e).unfold (buildIr e).root) := by
  have hb : BuildState.Builds {} (assigned e {}) (buildTypeExpr e {}).2 :=
    buildTypeExpr_builds e .nil h
  have hroot : (buildIr e).arena.Denotes e (buildIr e).root := hb.denotes _ (mem_assigned e {})
  have hunfold := (buildIr e).unfold_denotes hroot.lt
  exact ⟨hunfold.same hroot, hroot.same hunfold⟩

/-! ## Hash-consing preserves the schema -/

/-- Reading the root back gives the expression; ids point below the node they occur in; no two slots
hold equal nodes; the sub-expressions get equal ids exactly where they are equal; every slot
was built for a sub-expression; and the root is the last slot. -/
theorem buildIr_faithful (e : TypeExpr) (h : e.nodeCount < 2 ^ 32) :
    ((buildIr e).unfold (buildIr e).root).Same e ∧
    (∀ id n, (buildIr e).arena.get id = some n → ∀ c ∈ n.children,
      c.index < (buildIr e).arena.len ∧ c.index < id.index) ∧
    (∀ (i j : Nat) (m n : Node), (buildIr e).arena.nodes[i]? = some m →
      (buildIr e).arena.nodes[j]? = some n → (m == n) = true → i = j) ∧
    ((assigned e {}).map (·.1) = e.subexprs ∧
      ∀ p ∈ assigned e {}, ∀ q ∈ assigned e {}, p.1.Same q.1 ↔ p.2 = q.2) ∧
    (∀ k < (buildIr e).arena.len, ∃ p ∈ assigned e {}, p.2.index = k ∧
      ((buildIr e).unfold p.2).Same p.1) ∧
    (buildIr e).root.index + 1 = (buildIr e).arena.len := by
  have hlen : (buildTypeExpr e {}).2.arena.len ≤ 2 ^ 32 :=
    (buildTypeExpr_len_le e {}).trans (by simpa [SchemaArena.len] using h.le)
  have hb : BuildState.Builds {} (assigned e {}) (buildTypeExpr e {}).2 :=
    buildTypeExpr_builds e .nil hlen
  have hden : ∀ p ∈ assigned e {}, (buildIr e).arena.Denotes p.1 p.2 := hb.denotes
  have hroot := hden _ (mem_assigned e {})
  have hclosed := (buildIr e).closed
  refine ⟨?_, fun id n hget c hc => ?_, fun i j m n hi hj hbeq => hb.shared.distinct hi hj hbeq,
    ⟨assigned_fst e {}, ?_⟩, ?_, ?_⟩
  · exact ((buildIr e).unfold_denotes hroot.lt).same hroot
  · have hlt := hclosed hget c hc
    exact ⟨hlt.trans (List.getElem?_eq_some_iff.1 hget).1, hlt⟩
  · intro p hp q hq
    constructor
    · intro hsame
      exact ((hden p hp).congr hsame).unique hb.shared (hden q hq)
    · intro hid
      exact (hden p hp).same (hid ▸ hden q hq)
  · intro k hk
    obtain ⟨p, hp, hpk⟩ := hb.new k (Nat.zero_le _) hk
    exact ⟨p, hp, hpk, ((buildIr e).unfold_denotes (hpk ▸ hk)).same (hden p hp)⟩
  · -- The last slot was built for a sub-expression, whose id is not above the one of the root.
    have hlt : (buildIr e).root.index < (buildIr e).arena.len := (buildIr e).root_lt
    obtain ⟨p, hp, hlast⟩ := hb.new ((buildIr e).arena.len - 1) (Nat.zero_le _)
      (Nat.sub_lt (Nat.zero_lt_of_lt hlt) Nat.one_pos)
    have hsub : p.1 ∈ e.subexprs := assigned_fst e {} ▸ List.mem_map.2 ⟨p, hp, rfl⟩
    obtain ⟨i, hle, hi⟩ := hroot.sub hclosed hsub
    cases hi.unique hb.shared (hden p hp)
    change _ ≤ (buildIr e).root.index at hle
    omega

/-- Two list fields of one type: three nodes, the list shared. -/
theorem buildIr_faithful_pair :
    let e : TypeExpr := .struct [⟨"a", .required, .list (.primitive .bool) {}⟩,
      ⟨"b", .optional, .list (.primitive .bool) {}⟩] .ignore
    ((buildIr e).unfold (buildIr e).root).Same e ∧
      (buildIr e).root.index + 1 = (buildIr e).arena.len ∧ (buildIr e).arena.len = 3 := by
  intro e
  have h := buildIr_faithful e (by decide)
  exact ⟨h.1, h.2.2.2.2.2, by decide⟩

end RustlyCore
