import RustlyCore.Validation.Relation

/-!
# What accepts more

Which options accept more values, and which type expressions do: both are compared through the
conversion relation, so outputs agree with verdicts.
-/

namespace RustlyCore

variable {o o' : ValidationOptions} {e e' : TypeExpr} {root : Bool} {v w : OwnedValue}

/-! ## Options -/

theorem ConvFields.imp {map : OwnedDict} {fields : List (FieldExpr TypeExpr)}
    {values : List (Option OwnedValue)}
    (ih : ∀ f ∈ fields, ∀ v w, Conv o f.ty false v w → Conv o' f.ty false v w)
    (h : ConvFields o map fields values) : ConvFields o' map fields values := by
  induction fields generalizing values with
  | nil => cases values <;> exact h
  | cons f fields ihf =>
    cases values with
    | nil => exact h
    | cons value values =>
      refine ⟨?_, ihf (fun g hg => ih g (List.mem_cons_of_mem _ hg)) h.2⟩
      rcases h.1 with ⟨v, w, hfind, hvalue, hR⟩ | hnone
      · exact .inl ⟨v, w, hfind, hvalue, ih f List.mem_cons_self v w hR⟩
      · exact .inr hnone

theorem OwnedValue.IsBool.imp {strict strict' : Bool} {b : Bool}
    (hs : strict = false → strict' = false) (h : v.IsBool strict b) : v.IsBool strict' b := by
  cases h with
  | bool => exact .bool b
  | trueText hl h => exact .trueText (hs hl) h
  | falseText hl h => exact .falseText (hs hl) h

theorem OwnedValue.IsInt.imp {strict strict' : Bool} {i : Int64}
    (hs : strict = false → strict' = false) (h : v.IsInt strict i) : v.IsInt strict' i := by
  cases h with
  | int => exact .int i
  | string hl h => exact .string (hs hl) h

theorem OwnedValue.IsFloat.imp {strict strict' : Bool} {f : Float}
    (hs : strict = false → strict' = false) (h : v.IsFloat strict f) : v.IsFloat strict' f := by
  cases h with
  | float => exact .float f
  | int i => exact .int i
  | string hl h => exact .string (hs hl) h

theorem OwnedValue.IsSymbol.imp {strict strict' : Bool} {s : String}
    (hs : strict = false → strict' = false) (h : v.IsSymbol strict s) : v.IsSymbol strict' s := by
  cases h with
  | symbol => exact .symbol s
  | string hl => exact .string (hs hl)

theorem ConvPrimitive.imp {strict strict' : Bool} {primitive : PrimitiveType}
    (hs : strict = false → strict' = false) (h : ConvPrimitive strict primitive v w) :
    ConvPrimitive strict' primitive v w := by
  cases primitive with
  | any | string => exact h
  | bool => exact let ⟨b, hb, hw⟩ := h; ⟨b, hb.imp hs, hw⟩
  | int c => exact let ⟨i, hi, hw⟩ := h; ⟨i, hi.imp hs, hw⟩
  | float c => exact let ⟨f, hf, hw⟩ := h; ⟨f, hf.imp hs, hw⟩
  | symbol => exact let ⟨s, hsym, hw⟩ := h; ⟨s, hsym.imp hs, hw⟩

/-- Not being strict, and an `extra` option that allows more, keep conversions. Below the root the
`extra` option plays no part. -/
theorem Conv.imp (hs : o.strict = false → o'.strict = false)
    (hx : root = true → ∀ unknown extras, ConvExtras o.extraBehavior unknown extras →
      ConvExtras o'.extraBehavior unknown extras)
    (h : Conv o e root v w) : Conv o' e root v w := by
  induction e generalizing root v w with
  | primitive => exact ConvPrimitive.imp hs h
  | enum => exact let ⟨s, hmem, hsym, hw⟩ := h; ⟨s, hmem, hsym.imp hs, hw⟩
  | optional inner ih => exact h.imp id fun h => ⟨h.1, ih hx h.2⟩
  | list of c ih =>
    obtain ⟨items, outs, rfl, rfl, hall, hsize⟩ := h
    have hof (v w : OwnedValue) : Conv o of false v w → Conv o' of false v w :=
      ih fun h => absurd h Bool.false_ne_true
    exact ⟨items, outs, rfl, rfl, hall.imp hof, hsize⟩
  | dict of c ih =>
    obtain ⟨map, outs, rfl, rfl, hall, hsize⟩ := h
    have hof (v w : OwnedValue) : Conv o of false v w → Conv o' of false v w :=
      ih fun h => absurd h Bool.false_ne_true
    exact ⟨map, outs, rfl, rfl, hall.imp fun p q h => ⟨h.1, hof p.2 q.2 h.2⟩, hsize⟩
  | struct fields extra ih =>
    obtain ⟨map, values, extras, rfl, rfl, hfields, hextras⟩ := h
    have hty (f : FieldExpr TypeExpr) (hf : f ∈ fields) (v w : OwnedValue) :
        Conv o f.ty false v w → Conv o' f.ty false v w :=
      ih f hf fun h => absurd h Bool.false_ne_true
    refine ⟨map, values, extras, rfl, rfl, hfields.imp hty, ?_⟩
    cases root with
    | true => exact hx rfl _ _ hextras
    | false => exact hextras

theorem Conv.inner (hs : o.strict = o'.strict) (h : Conv o e false v w) : Conv o' e false v w :=
  h.imp (fun h => hs ▸ h) fun h => absurd h Bool.false_ne_true

theorem ConvFields.inner {map : OwnedDict} {fields : List (FieldExpr TypeExpr)}
    {values : List (Option OwnedValue)} (hs : o.strict = o'.strict)
    (h : ConvFields o map fields values) : ConvFields o' map fields values :=
  h.imp fun _ _ _ _ => Conv.inner hs

/-- The field names of the struct that a root value meets, if it meets one. -/
def TypeExpr.rootNames : TypeExpr → Option (List String)
  | .struct fields _ => some (fields.map (·.name))
  | .optional inner => inner.rootNames
  | _ => none

/-- How the outputs under `ignore` and under `allow` differ: only in the extras of a root struct,
which are none under `ignore` and all unknown entries, if there are any, under `allow`. -/
def RootExtras (names : Option (List String)) (v w w' : OwnedValue) : Prop :=
  match names, v with
  | some names, .dict map => ∃ values, w = .struct ⟨names, values, none⟩ ∧
    w' = .struct ⟨names, values,
      if (unknownEntries names map).isEmpty then none else some (unknownEntries names map)⟩
  | _, _ => w = w'

/-- Without a root struct the place of the value plays no part. -/
theorem conv_root_iff (h : e.rootNames = none) : Conv o e true v w ↔ Conv o e false v w := by
  induction e generalizing v w with
  | primitive | enum | list | dict => exact Iff.rfl
  | optional inner ih => simp only [Conv, ih h]
  | struct => cases h

/-- Under `ignore` and under `allow` the same values are accepted. -/
theorem conv_ignore_allow (hs : o.strict = o'.strict) (hi : o.extraBehavior = .ignore)
    (ha : o'.extraBehavior = .allow) :
    ((∃ w, Conv o e true v w) ↔ ∃ w', Conv o' e true v w') ∧
      ∀ w w', Conv o e true v w → Conv o' e true v w' → RootExtras e.rootNames v w w' := by
  have hplain (hnone : e.rootNames = none) (w : OwnedValue) :
      Conv o e true v w ↔ Conv o' e true v w := by
    rw [conv_root_iff hnone, conv_root_iff hnone]
    exact ⟨Conv.inner hs, Conv.inner hs.symm⟩
  induction e with
  | primitive | enum | list | dict =>
    exact ⟨exists_congr (hplain rfl), fun w w' h h' => ((hplain rfl w).1 h).functional h'⟩
  | optional inner ih =>
    by_cases hv : v = .null
    · subst hv
      simp only [Conv, RootExtras, true_and, ne_eq, not_true_eq_false, false_and, or_false]
      intro w w' h h'
      cases inner.optional.rootNames <;> exact h.trans h'.symm
    · simp only [Conv, hv, false_and, ne_eq, not_false_eq_true, true_and, false_or]
      exact ih fun hnone w => by simpa [Conv, hv] using hplain hnone w
  | struct fields extra =>
    have hfields (map : OwnedDict) (values : List (Option OwnedValue)) :
        ConvFields o map fields values ↔ ConvFields o' map fields values :=
      ⟨ConvFields.inner hs, ConvFields.inner hs.symm⟩
    simp only [Conv, hfields, hi, ha, if_true, ConvExtras, TypeExpr.rootNames]
    constructor
    · constructor
      · rintro ⟨_, map, values, _, rfl, rfl, h, rfl⟩
        exact ⟨_, map, values, _, rfl, rfl, h, rfl⟩
      · rintro ⟨_, map, values, _, rfl, rfl, h, rfl⟩
        exact ⟨_, map, values, _, rfl, rfl, h, rfl⟩
    · rintro w w' ⟨map, values, _, rfl, rfl, h, rfl⟩ ⟨_, values', _, hmap, rfl, h', rfl⟩
      cases hmap
      exact ⟨values, rfl, h.functional h' ▸ rfl⟩

/-- Options are monotone: what is accepted under `strict` is accepted without it, what is accepted
under `forbid` is accepted under `ignore` and `allow`, all with the same output; and `ignore` and
`allow` accept the same values, with outputs that differ in the extras of the root struct only. -/
theorem options_monotone (schema : SchemaIr) (o : ValidationOptions) (v : OwnedValue) :
    (∀ w, schema.Accepts { o with strict := true } v w →
      schema.Accepts { o with strict := false } v w) ∧
    (∀ w, schema.Accepts { o with extraBehavior := .forbid } v w →
      schema.Accepts { o with extraBehavior := .ignore } v w ∧
      schema.Accepts { o with extraBehavior := .allow } v w) ∧
    ((∃ w, schema.Accepts { o with extraBehavior := .ignore } v w) ↔
      ∃ w, schema.Accepts { o with extraBehavior := .allow } v w) ∧
    ∀ w w', schema.Accepts { o with extraBehavior := .ignore } v w →
      schema.Accepts { o with extraBehavior := .allow } v w' →
      RootExtras (schema.unfold schema.root).rootNames v w w' := by
  simp only [schema.accepts_iff]
  refine ⟨fun w h => ?_, fun w h => ⟨?_, ?_⟩, ?_⟩
  · refine Conv.imp ?_ ?_ h
    · exact fun _ => rfl
    · exact fun _ _ _ hx => hx
  · refine Conv.imp ?_ ?_ h
    · exact id
    · exact fun _ unknown extras hx => hx.2
  · refine Conv.imp ?_ ?_ h
    · exact id
    · rintro - unknown extras ⟨rfl, rfl⟩
      rfl
  · exact conv_ignore_allow rfl rfl rfl

/-! ## Type expressions -/

/-- Float bounds of equal rank bound the same numbers. -/
theorem FloatConstraints.Holds.congr {c d : FloatConstraints} (hcd : (c == d) = true) {f : Float}
    (h : c.Holds f) : d.Holds f := by
  have hranks := FloatConstraints.beq_iff.1 hcd
  obtain ⟨hmin, hmax⟩ := Prod.mk.inj hranks
  have hbound {a b : Option OrderedFloat} (hab : a.map (Binary64.rank ·.intoInner) =
      b.map (Binary64.rank ·.intoInner)) {m : OrderedFloat} (hm : m ∈ b) :
      ∃ n ∈ a, (n == m) = true := by
    have hbeq := OrderedFloat.option_beq_iff.2 hab
    cases a with
    | none => cases hm; cases hbeq
    | some n => cases hm; exact ⟨n, rfl, hbeq⟩
  constructor
  · intro m hm hlt
    obtain ⟨n, hn, hnm⟩ := hbound hmin hm
    exact h.min n hn (((OrderedFloat.lt_congr hnm f).1).2 hlt)
  · intro m hm hlt
    obtain ⟨n, hn, hnm⟩ := hbound hmax hm
    exact h.max n hn (((OrderedFloat.lt_congr hnm f).2).2 hlt)

theorem ConvPrimitive.congr {strict : Bool} {p q : PrimitiveType} (hpq : (p == q) = true)
    (h : ConvPrimitive strict p v w) : ConvPrimitive strict q v w := by
  rcases PrimitiveType.beq_iff.1 hpq with rfl | ⟨c, d, rfl, rfl, hcd⟩
  · exact h
  · exact let ⟨f, hf, hc, hw⟩ := h; ⟨f, hf, hc.congr (FloatConstraints.beq_iff.2 hcd), hw⟩

theorem ConvFields.congr {map : OwnedDict} {fields fields' : List (FieldExpr TypeExpr)}
    {values : List (Option OwnedValue)} (hs : TypeExpr.SameFields fields fields')
    (ih : ∀ f ∈ fields, ∀ {e'}, f.ty.Same e' → ∀ v w, Conv o f.ty false v w → Conv o e' false v w)
    (h : ConvFields o map fields values) : ConvFields o map fields' values := by
  induction fields generalizing fields' values with
  | nil =>
    cases fields' with
    | nil => exact h
    | cons => exact hs.elim
  | cons f fields ihf =>
    cases fields' with
    | nil => exact hs.elim
    | cons f' fields' =>
      cases values with
      | nil => exact h
      | cons value values =>
        obtain ⟨name, presence, ty⟩ := f
        obtain ⟨name', presence', ty'⟩ := f'
        obtain ⟨rfl, rfl, hty, hrest⟩ := hs
        refine ⟨?_, ihf hrest (fun g hg => ih g (List.mem_cons_of_mem _ hg)) h.2⟩
        rcases h.1 with ⟨v, w, hfind, hvalue, hR⟩ | hnone
        · exact .inl ⟨v, w, hfind, hvalue, ih _ List.mem_cons_self hty v w hR⟩
        · exact .inr hnone

theorem TypeExpr.SameFields.names {fields fields' : List (FieldExpr TypeExpr)}
    (hs : SameFields fields fields') : fields.map (·.name) = fields'.map (·.name) := by
  induction fields generalizing fields' with
  | nil =>
    cases fields' with
    | nil => rfl
    | cons => exact hs.elim
  | cons f fields ih =>
    cases fields' with
    | nil => exact hs.elim
    | cons f' fields' => rw [List.map_cons, List.map_cons, ih hs.2.2.2, hs.1]

/-- Equal expressions have the same conversions. -/
theorem Conv.congr (hs : e.Same e') (h : Conv o e root v w) : Conv o e' root v w := by
  induction e generalizing e' root v w with
  | primitive p => cases e' <;> first | exact hs.elim | exact ConvPrimitive.congr hs h
  | enum vs => cases e' <;> first | exact hs.elim | exact (show vs = _ from hs) ▸ h
  | optional inner ih =>
    cases e' <;> first | exact hs.elim | exact Or.imp id (fun h => ⟨h.1, ih hs h.2⟩) h
  | list of c ih =>
    cases e' <;> first | exact hs.elim | skip
    obtain ⟨items, outs, rfl, rfl, hall, hsize⟩ := h
    exact ⟨items, outs, rfl, rfl, hall.imp fun v w h => ih hs.1 h, hs.2 ▸ hsize⟩
  | dict of c ih =>
    cases e' <;> first | exact hs.elim | skip
    obtain ⟨map, outs, rfl, rfl, hall, hsize⟩ := h
    exact ⟨map, outs, rfl, rfl, hall.imp fun p q h => ⟨h.1, ih hs.1 h.2⟩, hs.2 ▸ hsize⟩
  | struct fields extra ih =>
    cases e' <;> first | exact hs.elim | skip
    obtain ⟨map, values, extras, rfl, rfl, hfields, hextras⟩ := h
    obtain ⟨hfs, rfl⟩ := hs
    rw [hfs.names] at hextras ⊢
    exact ⟨map, values, extras, rfl, rfl,
      hfields.congr hfs fun f hf _ hs v w => ih f hf hs, hextras⟩

/-- A built schema accepts what its expression converts. -/
theorem buildIr_accepts_iff (hlen : (buildIr e).arena.len ≤ 2 ^ 32) :
    (buildIr e).Accepts o v w ↔ Conv o e true v w := by
  obtain ⟨hsame, hsame'⟩ := buildIr_unfold hlen
  rw [SchemaIr.accepts_iff]
  exact ⟨Conv.congr hsame, Conv.congr hsame'⟩

/-! ## Relaxed expressions -/

/-- A lower limit is lowered or removed. -/
def Lowered {α : Type} [LE α] (a b : Option α) : Prop := ∀ y ∈ b, ∃ x ∈ a, y ≤ x

/-- An upper limit is raised or removed. -/
def Raised {α : Type} [LE α] (a b : Option α) : Prop := ∀ y ∈ b, ∃ x ∈ a, x ≤ y

/-- The order of the bounds as numbers. -/
instance : LE OrderedFloat where
  le a b := a.intoInner ≤ b.intoInner

/-- `Relaxes e e'`: `e'` arises from `e` by relaxing parts of it, at any depth. -/
inductive TypeExpr.Relaxes : TypeExpr → TypeExpr → Prop
  | refl (e : TypeExpr) : Relaxes e e
  | trans {e e' e'' : TypeExpr} : Relaxes e e' → Relaxes e' e'' → Relaxes e e''
  | int {c c' : IntConstraints} : Lowered c.min c'.min → Raised c.max c'.max →
    Relaxes (.primitive (.int c)) (.primitive (.int c'))
  | float {c c' : FloatConstraints} : c'.min = c.min ∨ Lowered c.min c'.min →
    c'.max = c.max ∨ Raised c.max c'.max →
    Relaxes (.primitive (.float c)) (.primitive (.float c'))
  | string {c c' : StringConstraints} : Lowered c.minSize c'.minSize →
    Raised c.maxSize c'.maxSize → c'.format = c.format ∨ c'.format = none →
    Relaxes (.primitive (.string c)) (.primitive (.string c'))
  | enum {variants variants' : List String} : variants ⊆ variants' →
    Relaxes (.enum variants) (.enum variants')
  | listSize {of : TypeExpr} {c c' : CollectionConstraints} : Lowered c.minSize c'.minSize →
    Raised c.maxSize c'.maxSize → Relaxes (.list of c) (.list of c')
  | dictSize {of : TypeExpr} {c c' : CollectionConstraints} : Lowered c.minSize c'.minSize →
    Raised c.maxSize c'.maxSize → Relaxes (.dict of c) (.dict of c')
  | presence {before after : List (FieldExpr TypeExpr)} {name : String} {ty : TypeExpr}
      {extra : ExtraBehavior} :
    Relaxes (.struct (before ++ ⟨name, .required, ty⟩ :: after) extra)
      (.struct (before ++ ⟨name, .optional, ty⟩ :: after) extra)
  | extra {fields : List (FieldExpr TypeExpr)} {extra : ExtraBehavior} :
    Relaxes (.struct fields .forbid) (.struct fields extra)
  | wrap {e : TypeExpr} : Relaxes e (.optional e)
  | optional {e e' : TypeExpr} : Relaxes e e' → Relaxes (.optional e) (.optional e')
  | list {e e' : TypeExpr} {c : CollectionConstraints} : Relaxes e e' →
    Relaxes (.list e c) (.list e' c)
  | dict {e e' : TypeExpr} {c : CollectionConstraints} : Relaxes e e' →
    Relaxes (.dict e c) (.dict e' c)
  | field {before after : List (FieldExpr TypeExpr)} {name : String}
      {presence : StructFieldPresence} {ty ty' : TypeExpr} {extra : ExtraBehavior} :
    Relaxes ty ty' → Relaxes (.struct (before ++ ⟨name, presence, ty⟩ :: after) extra)
      (.struct (before ++ ⟨name, presence, ty'⟩ :: after) extra)

theorem SizeHolds.relax {length : Nat} {minSize minSize' maxSize maxSize' : Option Nat}
    (hmin : Lowered minSize minSize') (hmax : Raised maxSize maxSize')
    (h : SizeHolds length minSize maxSize) : SizeHolds length minSize' maxSize' where
  min m hm := let ⟨n, hn, hmn⟩ := hmin m hm; hmn.trans (h.min n hn)
  max m hm := let ⟨n, hn, hnm⟩ := hmax m hm; (h.max n hn).trans hnm

theorem IntConstraints.Holds.relax {c c' : IntConstraints} (hmin : Lowered c.min c'.min)
    (hmax : Raised c.max c'.max) {i : Int64} (h : c.Holds i) : c'.Holds i where
  min m hm := let ⟨n, hn, hmn⟩ := hmin m hm; Int64.le_trans hmn (h.min n hn)
  max m hm := let ⟨n, hn, hnm⟩ := hmax m hm; Int64.le_trans (h.max n hn) hnm

theorem FloatConstraints.Holds.relax {c c' : FloatConstraints}
    (hmin : c'.min = c.min ∨ Lowered c.min c'.min) (hmax : c'.max = c.max ∨ Raised c.max c'.max)
    {f : Float} (h : c.Holds f) : c'.Holds f := by
  constructor
  · intro m hm hlt
    rcases hmin with heq | hmin
    · exact h.min m (heq ▸ hm) hlt
    · obtain ⟨n, hn, hmn⟩ := hmin m hm
      exact h.min n hn (Binary64.lt_of_lt_of_le hlt hmn)
  · intro m hm hlt
    rcases hmax with heq | hmax
    · exact h.max m (heq ▸ hm) hlt
    · obtain ⟨n, hn, hnm⟩ := hmax m hm
      exact h.max n hn (Binary64.lt_of_le_of_lt hnm hlt)

theorem StringConstraints.Holds.relax {c c' : StringConstraints}
    (hmin : Lowered c.minSize c'.minSize) (hmax : Raised c.maxSize c'.maxSize)
    (hformat : c'.format = c.format ∨ c'.format = none) {s : String} (h : c.Holds s) :
    c'.Holds s := by
  refine ⟨h.size.relax hmin hmax, ?_⟩
  intro format hf
  rcases hformat with heq | heq
  · exact h.format format (heq ▸ hf)
  · rw [heq] at hf
    cases hf

/-- Relaxing one field of a list of fields. -/
theorem ConvFields.relax {map : OwnedDict} {before after : List (FieldExpr TypeExpr)}
    {f f' : FieldExpr TypeExpr} {values : List (Option OwnedValue)}
    (hf : ∀ value, ConvField (Conv o f.ty false) map f.name f.presence value →
      ConvField (Conv o f'.ty false) map f'.name f'.presence value)
    (h : ConvFields o map (before ++ f :: after) values) :
    ConvFields o map (before ++ f' :: after) values := by
  induction before generalizing values with
  | nil =>
    cases values with
    | nil => exact h
    | cons value values => exact ⟨hf value h.1, h.2⟩
  | cons g before ih =>
    cases values with
    | nil => exact h
    | cons value values => exact ⟨h.1, ih h.2⟩

theorem Conv.relax (hr : e.Relaxes e') (h : Conv o e root v w) : Conv o e' root v w := by
  induction hr generalizing root v w with
  | refl => exact h
  | trans _ _ ih ih' => exact ih' (ih h)
  | int hmin hmax =>
    obtain ⟨i, hi, hc, hw⟩ := h
    exact ⟨i, hi, hc.relax hmin hmax, hw⟩
  | float hmin hmax =>
    obtain ⟨f, hf, hc, hw⟩ := h
    exact ⟨f, hf, hc.relax hmin hmax, hw⟩
  | string hmin hmax hformat =>
    obtain ⟨s, hs, hc, hw⟩ := h
    exact ⟨s, hs, hc.relax hmin hmax hformat, hw⟩
  | enum hsub =>
    obtain ⟨s, hmem, hs, hw⟩ := h
    exact ⟨s, hsub hmem, hs, hw⟩
  | listSize hmin hmax =>
    obtain ⟨items, outs, hv, hw, hall, hsize⟩ := h
    exact ⟨items, outs, hv, hw, hall, SizeHolds.relax hmin hmax hsize⟩
  | dictSize hmin hmax =>
    obtain ⟨map, outs, hv, hw, hall, hsize⟩ := h
    exact ⟨map, outs, hv, hw, hall, SizeHolds.relax hmin hmax hsize⟩
  | @presence before after name ty extra =>
    obtain ⟨map, values, extras, hv, rfl, hfields, hextras⟩ := h
    have hnames :
        (before ++ ⟨name, .required, ty⟩ :: after : List (FieldExpr TypeExpr)).map (·.name) =
          (before ++ ⟨name, .optional, ty⟩ :: after : List (FieldExpr TypeExpr)).map (·.name) := by
      simp
    rw [hnames] at hextras ⊢
    refine ⟨map, values, extras, hv, rfl, hfields.relax ?_, hextras⟩
    intro value hf
    refine Or.imp id (?_) hf
    intro hnone
    cases hnone.2.2
  | @extra fields extra =>
    obtain ⟨map, values, extras, hv, hw, hfields, hextras⟩ := h
    refine ⟨map, values, extras, hv, hw, hfields, ?_⟩
    cases root with
    | true => exact hextras
    | false =>
      obtain ⟨hnil, rfl⟩ := hextras
      rw [hnil]
      cases extra <;> simp [ConvExtras]
  | wrap =>
    by_cases hv : v = .null
    · exact .inl ⟨hv, h.null_iff.1 hv⟩
    · exact .inr ⟨hv, h⟩
  | optional _ ih => exact Or.imp id (fun h => ⟨h.1, ih h.2⟩) h
  | list _ ih =>
    obtain ⟨items, outs, hv, hw, hall, hsize⟩ := h
    exact ⟨items, outs, hv, hw, hall.imp fun v w => ih, hsize⟩
  | dict _ ih =>
    obtain ⟨map, outs, hv, hw, hall, hsize⟩ := h
    exact ⟨map, outs, hv, hw, hall.imp fun p q h => ⟨h.1, ih h.2⟩, hsize⟩
  | @field before after name presence ty ty' extra _ ih =>
    obtain ⟨map, values, extras, hv, rfl, hfields, hextras⟩ := h
    have hnames : (before ++ ⟨name, presence, ty⟩ :: after : List (FieldExpr TypeExpr)).map (·.name)
        = (before ++ ⟨name, presence, ty'⟩ :: after : List (FieldExpr TypeExpr)).map (·.name) := by
      simp
    rw [hnames] at hextras ⊢
    refine ⟨map, values, extras, hv, rfl, hfields.relax ?_, hextras⟩
    intro value hf
    rcases hf with ⟨v, w, hfind, hvalue, hR⟩ | hnone
    · exact .inl ⟨v, w, hfind, hvalue, ih hR⟩
    · exact .inr hnone

/-- Relaxing a schema keeps what it accepts, and the outputs: for any two schemas that stand for
such expressions, and so for the ones that are built from them. The bounds on the arenas are the
ones that the source asserts: there the ids of nodes do not wrap. -/
theorem relaxed_accepts :
    (∀ schema schema' : SchemaIr,
      (schema.unfold schema.root).Relaxes (schema'.unfold schema'.root) →
      ∀ o v w, schema.Accepts o v w → schema'.Accepts o v w) ∧
    ∀ e e' : TypeExpr, e.Relaxes e' →
      (buildIr e).arena.len ≤ 2 ^ 32 → (buildIr e').arena.len ≤ 2 ^ 32 →
      ∀ o v w, (buildIr e).Accepts o v w → (buildIr e').Accepts o v w := by
  constructor
  · intro schema schema' hr o v w h
    rw [SchemaIr.accepts_iff] at h ⊢
    exact h.relax hr
  · intro e e' hr hlen hlen' o v w h
    rw [buildIr_accepts_iff hlen] at h
    rw [buildIr_accepts_iff hlen']
    exact h.relax hr

/-- A field that becomes optional, of a type that takes longer lists. -/
theorem relaxed_accepts_list :
    let e : TypeExpr :=
      .struct [⟨"a", .required, .list (.primitive .bool) { maxSize := some 1 }⟩] .forbid
    let e' : TypeExpr :=
      .struct [⟨"a", .optional, .list (.primitive .bool) { maxSize := some 2 }⟩] .forbid
    e.Relaxes e' ∧ (buildIr e').Accepts {} (.dict [("a", .list [.string "1"])])
      (.struct ⟨["a"], [some (.list [.bool true])], none⟩) := by
  intro e e'
  have hr : e.Relaxes e' := by
    refine .trans (@TypeExpr.Relaxes.field [] [] "a" .required _ _ .forbid ?_)
      (@TypeExpr.Relaxes.presence [] [] "a" _ .forbid)
    exact .listSize (by simp [Lowered]) (by simp [Raised])
  have h : Conv {} e true (.dict [("a", .list [.string "1"])])
      (.struct ⟨["a"], [some (.list [.bool true])], none⟩) := by
    refine ⟨_, _, _, rfl, rfl, ⟨.inl ⟨.list [.string "1"], _, .head, rfl, ?_⟩, trivial⟩, ?_⟩
    · refine ⟨_, _, rfl, rfl, .cons ⟨true, .trueText rfl (.inl rfl), rfl⟩ .nil, ?_⟩
      exact ⟨nofun, by simp⟩
    · exact ⟨by decide, rfl⟩
  exact ⟨hr, relaxed_accepts.2 e e' hr (by decide) (by decide) {} _ _
    ((buildIr_accepts_iff (by decide)).2 h)⟩

end RustlyCore
