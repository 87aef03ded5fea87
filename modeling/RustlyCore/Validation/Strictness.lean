import RustlyCore.Lib.Pointwise
import RustlyCore.Validation.Issues
import RustlyCore.Validation.Monotone

/-!
# What strictness asks for

Strict validation accepts what the other accepts, except where text is read as something else.
-/

namespace RustlyCore

variable {o : ValidationOptions} {e : TypeExpr} {root : Bool} {v w : OwnedValue}

/-! ## Text that is read -/

/-- Text under the type becomes something other than text. -/
def TypeExpr.Coerces : TypeExpr → Prop
  | .primitive .bool | .primitive (.int _) | .primitive (.float _) | .primitive .symbol => True
  | .enum _ => True
  | _ => False

/-- No text stands where it becomes something else. -/
def TypeExpr.Literal (e : TypeExpr) (v : OwnedValue) : Prop :=
  ∀ path e' s, e.Visits v path e' (.string s) → ¬ e'.Coerces

/-- Each part of a value that converts converts. -/
theorem Conv.visits {e' : TypeExpr} {v' : OwnedValue} {path : List PathSegment}
    (hvisits : e.Visits v path e' v') (h : Conv o e root v w) :
    ∃ root' w', Conv o e' root' v' w' := by
  induction hvisits generalizing root w with
  | here => exact ⟨root, w, h⟩
  | optional hnull _ ih =>
    rcases h with ⟨rfl, -⟩ | ⟨-, h⟩
    · exact absurd rfl hnull
    · exact ih h
  | item hget _ ih =>
    obtain ⟨items, outs, heq, -, hall, -⟩ := h
    cases heq
    obtain ⟨w, -, h⟩ := forall₂_mem_left hall _ (List.mem_of_getElem? hget)
    exact ih h
  | entry hmem _ ih =>
    obtain ⟨map, outs, heq, -, hall, -⟩ := h
    cases heq
    obtain ⟨q, -, -, h⟩ := forall₂_mem_left hall _ hmem
    exact ih h
  | field hf hfirst _ ih =>
    obtain ⟨map, values, extras, heq, -, hfields, -⟩ := h
    cases heq
    obtain ⟨value, -, h⟩ := forall₂_mem_left (convFields_iff.1 hfields) _ hf
    rcases h with ⟨v, w, hfirst', -, h⟩ | ⟨hnone, -, -⟩
    · cases hfirst.dictFind.symm.trans hfirst'.dictFind
      exact ih h
    · exact absurd rfl (hnone _ hfirst.mem)

theorem Conv.not_coerces {s : String} (hs : o.strict = true) (h : Conv o e root (.string s) w) :
    ¬ e.Coerces := by
  have hstrict {p : Prop} (hl : o.strict = false) : p := absurd (hs.symm.trans hl) (by decide)
  intro hc
  cases e with
  | primitive p =>
    cases p with
    | any | string => exact hc
    | bool => obtain ⟨b, hb, -⟩ := h; cases hb <;> exact hstrict ‹_›
    | int c => obtain ⟨i, hi, -⟩ := h; cases hi; exact hstrict ‹_›
    | float c => obtain ⟨f, hf, -⟩ := h; cases hf; exact hstrict ‹_›
    | symbol => obtain ⟨s, hs, -⟩ := h; cases hs; exact hstrict ‹_›
  | enum => obtain ⟨s, -, hs, -⟩ := h; cases hs; exact hstrict ‹_›
  | _ => exact hc

/-! ## Without text to read -/

section
variable {strict : Bool} (hv : ∀ s, v ≠ .string s)
include hv

theorem OwnedValue.IsBool.literal {b : Bool} (h : v.IsBool false b) : v.IsBool strict b := by
  cases h with
  | bool => exact .bool b
  | trueText => exact absurd rfl (hv _)
  | falseText => exact absurd rfl (hv _)

theorem OwnedValue.IsInt.literal {i : Int64} (h : v.IsInt false i) : v.IsInt strict i := by
  cases h with
  | int => exact .int i
  | string => exact absurd rfl (hv _)

theorem OwnedValue.IsFloat.literal {f : Float} (h : v.IsFloat false f) : v.IsFloat strict f := by
  cases h with
  | float => exact .float f
  | int i => exact .int i
  | string => exact absurd rfl (hv _)

theorem OwnedValue.IsSymbol.literal {s : String} (h : v.IsSymbol false s) :
    v.IsSymbol strict s := by
  cases h with
  | symbol => exact .symbol s
  | string => exact absurd rfl (hv _)

end

theorem TypeExpr.Literal.here (h : e.Literal v) (hc : e.Coerces) (s : String) : v ≠ .string s := by
  rintro rfl
  exact h [] e s (.here _ _) hc

theorem Conv.literal {strict : Bool} (hl : e.Literal v)
    (h : Conv { o with strict := false } e root v w) :
    Conv { o with strict := strict } e root v w := by
  induction e generalizing root v w with
  | primitive p =>
    cases p with
    | any | string => exact h
    | bool =>
      obtain ⟨b, hb, hw⟩ := h
      exact ⟨b, hb.literal (hl.here trivial), hw⟩
    | int c =>
      obtain ⟨i, hi, hw⟩ := h
      exact ⟨i, hi.literal (hl.here trivial), hw⟩
    | float c =>
      obtain ⟨f, hf, hw⟩ := h
      exact ⟨f, hf.literal (hl.here trivial), hw⟩
    | symbol =>
      obtain ⟨s, hs, hw⟩ := h
      exact ⟨s, hs.literal (hl.here trivial), hw⟩
  | enum =>
    obtain ⟨s, hmem, hs, hw⟩ := h
    exact ⟨s, hmem, hs.literal (hl.here trivial), hw⟩
  | optional inner ih =>
    rcases h with h | ⟨hnull, h⟩
    · exact .inl h
    · refine .inr ⟨hnull, ih ?_ h⟩
      exact fun path e' s hvisits => hl path e' s (.optional hnull hvisits)
  | list of c ih =>
    obtain ⟨items, outs, rfl, rfl, hall, hsize⟩ := h
    obtain ⟨hlength, hzip⟩ := List.forall₂_iff_zip.1 hall
    refine ⟨items, outs, rfl, rfl, List.forall₂_iff_zip.2 ⟨hlength, fun hmem => ?_⟩, hsize⟩
    obtain ⟨i, hget⟩ := List.getElem?_of_mem (List.of_mem_zip hmem).1
    apply ih _ (hzip hmem)
    exact fun path e' s hvisits => hl _ e' s (.item hget hvisits)
  | dict of c ih =>
    obtain ⟨map, outs, rfl, rfl, hall, hsize⟩ := h
    obtain ⟨hlength, hzip⟩ := List.forall₂_iff_zip.1 hall
    refine ⟨map, outs, rfl, rfl, List.forall₂_iff_zip.2 ⟨hlength, fun hmem => ?_⟩, hsize⟩
    refine ⟨(hzip hmem).1, ih ?_ (hzip hmem).2⟩
    exact fun path e' s hvisits => hl _ e' s (.entry (List.of_mem_zip hmem).1 hvisits)
  | struct fields extra ih =>
    obtain ⟨map, values, extras, rfl, rfl, hfields, hextras⟩ := h
    obtain ⟨hlength, hzip⟩ := List.forall₂_iff_zip.1 (convFields_iff.1 hfields)
    refine ⟨map, values, extras, rfl, rfl, convFields_iff.2 ?_, hextras⟩
    refine List.forall₂_iff_zip.2 ⟨hlength, fun {f value} hmem => ?_⟩
    rcases hzip hmem with ⟨v, w, hfirst, hvalue, h⟩ | hnone
    · have hf := (List.of_mem_zip hmem).1
      refine .inl ⟨v, w, hfirst, hvalue, ih f hf ?_ h⟩
      exact fun path e' s hvisits => hl _ e' s (.field hf hfirst hvisits)
    · exact .inr hnone

/-! ## Strict acceptance -/

/-- Strict validation accepts exactly those of the accepted values in which no text is read as
something else, with the same output. -/
theorem strict_accepts_iff (schema : SchemaIr) (o : ValidationOptions) (v w : OwnedValue) :
    schema.Accepts { o with strict := true } v w ↔
      schema.Accepts { o with strict := false } v w ∧ (schema.unfold schema.root).Literal v := by
  rw [schema.accepts_iff, schema.accepts_iff]
  constructor
  · intro h
    have hlenient : Conv { o with strict := false } (schema.unfold schema.root) true v w := by
      apply h.imp
      · exact fun _ => rfl
      · exact fun _ _ _ => id
    refine ⟨hlenient, fun path e' s hvisits => ?_⟩
    obtain ⟨root', w', h⟩ := h.visits hvisits
    exact h.not_coerces rfl
  · rintro ⟨h, hl⟩
    exact h.literal hl

end RustlyCore
