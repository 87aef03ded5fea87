import RustlyCore.Validation.Check

/-!
# What issues point at

Every finding of a verdict addresses a place in the value that was checked; a missing field is
addressed by its name, under the dict it is missing from.
-/

namespace RustlyCore

/-! ## Places -/

/-- `At v path w`: in `v`, the path leads to `w`. -/
inductive OwnedValue.At : OwnedValue → List PathSegment → OwnedValue → Prop
  | here (v : OwnedValue) : At v [] v
  | index {items : List OwnedValue} {i : Nat} {v w : OwnedValue} {path : List PathSegment} :
    items[i]? = some v → At v path w → At (.list items) (.index i :: path) w
  | key {map : OwnedDict} {key : String} {v w : OwnedValue} {path : List PathSegment} :
    (key, v) ∈ map → At v path w → At (.dict map) (.key key :: path) w

/-- `Visits e v path e' v'`: checking `e` on `v` checks `e'` on `v'`, the value at the path. -/
inductive TypeExpr.Visits :
    TypeExpr → OwnedValue → List PathSegment → TypeExpr → OwnedValue → Prop
  | here (e : TypeExpr) (v : OwnedValue) : Visits e v [] e v
  | optional {inner e' : TypeExpr} {v v' : OwnedValue} {path : List PathSegment} :
    v ≠ .null → Visits inner v path e' v' → Visits (.optional inner) v path e' v'
  | item {of e' : TypeExpr} {c : CollectionConstraints} {items : List OwnedValue} {i : Nat}
      {v v' : OwnedValue} {path : List PathSegment} :
    items[i]? = some v → Visits of v path e' v' →
    Visits (.list of c) (.list items) (.index i :: path) e' v'
  | entry {of e' : TypeExpr} {c : CollectionConstraints} {map : OwnedDict} {key : String}
      {v v' : OwnedValue} {path : List PathSegment} :
    (key, v) ∈ map → Visits of v path e' v' →
    Visits (.dict of c) (.dict map) (.key key :: path) e' v'
  | field {fields : List (FieldExpr TypeExpr)} {extra : ExtraBehavior} {e' : TypeExpr}
      {f : FieldExpr TypeExpr} {map : OwnedDict} {v v' : OwnedValue} {path : List PathSegment} :
    f ∈ fields → FirstEntry map f.name v → Visits f.ty v path e' v' →
    Visits (.struct fields extra) (.dict map) (.key f.name :: path) e' v'

theorem TypeExpr.Visits.at {e e' : TypeExpr} {v v' : OwnedValue} {path : List PathSegment}
    (h : Visits e v path e' v') : v.At path v' := by
  induction h with
  | here _ v => exact .here v
  | optional _ _ ih => exact ih
  | item hget _ ih => exact .index hget ih
  | entry hmem _ ih => exact .key hmem ih
  | field _ hfirst _ ih => exact .key hfirst.mem ih

/-- A required field that is missing is addressed below the dict it is missing from; every other
finding addresses a value. -/
def Addresses (e : TypeExpr) (v : OwnedValue) (path : List PathSegment) (finding : Finding) :
    Prop :=
  if finding.1 = requiredMissing.1 then
    ∃ place fields extra map f, path = place ++ [.key f.name] ∧
      e.Visits v place (.struct fields extra) (.dict map) ∧ f ∈ fields ∧ f.presence = .required ∧
      ∀ p ∈ map, p.1 ≠ f.name
  else ∃ w, v.At path w

/-! ## Findings of leaves -/

/-- The code is not the one of a missing field. -/
def Finding.Ordinary (finding : Finding) : Prop := finding.1 ≠ requiredMissing.1

theorem ordinary_typeMismatch (expected : String) : (typeMismatch expected).Ordinary := by
  simp [Finding.Ordinary, typeMismatch, requiredMissing]

theorem ordinary_coerceFailed (v : OwnedValue) : (coerceFailed v).Ordinary := by
  simp [Finding.Ordinary, coerceFailed, requiredMissing]

theorem ordinary_valueNotIn (variants : List String) : (valueNotIn variants).Ordinary := by
  simp [Finding.Ordinary, valueNotIn, requiredMissing]

section
variable {strict : Bool} {v : OwnedValue} {finding : Finding}

theorem toBool_error (h : v.toBool strict = .error finding) : finding.Ordinary := by
  simp only [OwnedValue.toBool] at h
  split at h
  · cases h
  · split at h
    · cases h
    · split at h <;> cases h
      exact ordinary_coerceFailed _
  · cases h
    exact ordinary_typeMismatch _

theorem toInt_error (h : v.toInt strict = .error finding) : finding.Ordinary := by
  simp only [OwnedValue.toInt] at h
  split at h
  · cases h
  · split at h <;> cases h
    exact ordinary_coerceFailed _
  · cases h
    exact ordinary_typeMismatch _

theorem toFloat_error (h : v.toFloat strict = .error finding) : finding.Ordinary := by
  simp only [OwnedValue.toFloat] at h
  split at h
  · cases h
  · cases h
  · split at h <;> cases h
    exact ordinary_coerceFailed _
  · cases h
    exact ordinary_typeMismatch _

theorem toText_error (h : v.toText = .error finding) : finding.Ordinary := by
  simp only [OwnedValue.toText] at h
  split at h <;> cases h
  exact ordinary_typeMismatch _

theorem toSymbol_error (h : v.toSymbol strict = .error finding) : finding.Ordinary := by
  simp only [OwnedValue.toSymbol] at h
  split at h <;> cases h
  exact ordinary_typeMismatch _

theorem toVariant_error {variants : List String}
    (h : v.toVariant strict variants = .error finding) : finding.Ordinary := by
  simp only [OwnedValue.toVariant] at h
  split at h
  · split at h <;> cases h
    exact ordinary_valueNotIn _
  · split at h <;> cases h
    exact ordinary_valueNotIn _
  · cases h
    exact ordinary_typeMismatch _

end

theorem limited_ordinary {α : Type} {limit : Option α} {violated : α → Prop}
    [DecidablePred violated] {finding : α → Finding} (h : ∀ bound, (finding bound).Ordinary) :
    ∀ i ∈ limited limit violated finding, i.Ordinary := by
  intro i hi
  simp only [limited] at hi
  split at hi
  · split at hi
    · exact List.mem_singleton.1 hi ▸ h _
    · cases hi
  · cases hi

/-- A lower and an upper limit. -/
theorem limits_ordinary {α : Type} {lower upper : Option α} {below above : α → Prop}
    [DecidablePred below] [DecidablePred above] {small large : α → Finding}
    (hsmall : ∀ bound, (small bound).Ordinary) (hlarge : ∀ bound, (large bound).Ordinary) :
    ∀ i ∈ limited lower below small ++ limited upper above large, i.Ordinary := by
  intro i hi
  rcases List.mem_append.1 hi with hi | hi
  · exact limited_ordinary hsmall i hi
  · exact limited_ordinary hlarge i hi

theorem IntConstraints.violations_ordinary (c : IntConstraints) (i : Int64) :
    ∀ f ∈ c.violations i, f.Ordinary := by
  apply limits_ordinary <;> simp [Finding.Ordinary, requiredMissing]

theorem FloatConstraints.violations_ordinary (c : FloatConstraints) (x : Float) :
    ∀ f ∈ c.violations x, f.Ordinary := by
  apply limits_ordinary <;> simp [Finding.Ordinary, requiredMissing]

theorem sizeViolations_ordinary (length : Nat) (minSize maxSize : Option Nat) :
    ∀ f ∈ sizeViolations length minSize maxSize, f.Ordinary := by
  apply limits_ordinary <;> simp [Finding.Ordinary, requiredMissing]

theorem StringConstraints.violations_ordinary (c : StringConstraints) (s : String) :
    ∀ f ∈ c.violations s, f.Ordinary := by
  intro f hf
  rcases List.mem_append.1 hf with hf | hf
  · exact sizeViolations_ordinary _ _ _ f hf
  · exact limited_ordinary
      (fun _ => by simp [Finding.Ordinary, formatInvalid, requiredMissing]) f hf

/-! ## Findings of verdicts -/

variable {o : ValidationOptions} {e : TypeExpr} {root : Bool} {v : OwnedValue}

theorem addresses_here {finding : Finding} (h : finding.Ordinary) : Addresses e v [] finding := by
  rw [Addresses, if_neg h]
  exact ⟨v, .here v⟩

theorem mem_here {found : List Finding} {f : List PathSegment × Finding}
    (h : f ∈ (Report.here found : Findings)) : f.1 = [] ∧ f.2 ∈ found := by
  obtain ⟨finding, hmem, rfl⟩ := List.mem_map.1 h
  exact ⟨rfl, hmem⟩

/-- The findings of a verdict address places for the expression on the value. -/
def Verdict.Located (verdict : Verdict) (e : TypeExpr) (v : OwnedValue) : Prop :=
  ∀ f ∈ verdict.findings, Addresses e v f.1 f.2

theorem Verdict.located_here {output : Option OwnedValue} {found : List Finding}
    (h : ∀ i ∈ found, i.Ordinary) : (Verdict.here output found).Located e v := by
  intro f hf
  obtain ⟨hpath, hmem⟩ := mem_here hf
  rw [hpath]
  exact addresses_here (h _ hmem)

theorem Verdict.located_coerced {α : Type} {result : Except Finding α} {wrap : α → OwnedValue}
    {violations : α → List Finding} (herror : ∀ i, result = .error i → i.Ordinary)
    (hviolations : ∀ a, ∀ i ∈ violations a, i.Ordinary) :
    (Verdict.coerced result wrap violations).Located e v := by
  cases result with
  | ok a => exact located_here (hviolations a)
  | error i => exact located_here fun j hj => List.mem_singleton.1 hj ▸ herror i rfl

/-- Findings about a size are about the collection itself. -/
theorem CollectionConstraints.violations_located (c : CollectionConstraints) (length : Nat) :
    ∀ f ∈ (Report.here (c.violations length) : Findings), Addresses e v f.1 f.2 := by
  intro f hf
  obtain ⟨hpath, hmem⟩ := mem_here hf
  rw [hpath]
  exact addresses_here (sizeViolations_ordinary _ _ _ _ hmem)

/-- A place in a part is a place in the whole. -/
theorem Addresses.within {e' : TypeExpr} {v' : OwnedValue} (start : List PathSegment)
    {path : List PathSegment} {finding : Finding}
    (hat : ∀ {path w}, v'.At path w → v.At (start ++ path) w)
    (hvisits : ∀ {path e'' v''}, e'.Visits v' path e'' v'' → e.Visits v (start ++ path) e'' v'')
    (h : Addresses e' v' path finding) : Addresses e v (start ++ path) finding := by
  rw [Addresses] at h ⊢
  split at h
  next hcode =>
    obtain ⟨place, fields, extra, map, f, rfl, hv, hf, hreq, habsent⟩ := h
    rw [if_pos hcode]
    exact ⟨start ++ place, fields, extra, map, f, (List.append_assoc ..).symm, hvisits hv, hf, hreq,
      habsent⟩
  next hcode =>
    obtain ⟨w, hw⟩ := h
    rw [if_neg hcode]
    exact ⟨w, hat hw⟩

theorem mem_under {segment : PathSegment} {found : Findings} {f : List PathSegment × Finding}
    (h : f ∈ Report.under segment found) : ∃ g ∈ found, f = ([segment] ++ g.1, g.2) := by
  obtain ⟨g, hg, rfl⟩ := List.mem_map.1 h
  exact ⟨g, hg, rfl⟩

theorem checkField_located {fields : List (FieldExpr TypeExpr)} {extra : ExtraBehavior}
    {f : FieldExpr TypeExpr} {map : OwnedDict} (hf : f ∈ fields)
    (ih : ∀ v, (check o f.ty false v).Located f.ty v) :
    (checkField map f.name f.presence (check o f.ty false)).Located (.struct fields extra)
      (.dict map) := by
  intro g hg
  rw [checkField] at hg
  split at hg
  next v hfind =>
    obtain ⟨h, hmem, rfl⟩ := mem_under hg
    exact (ih v h hmem).within [.key f.name] (.key (Validator.mem_of_dictFind hfind))
      (.field hf (dictFind_eq_some.1 hfind))
  next hfind =>
    obtain ⟨h, hmem, rfl⟩ := mem_under hg
    obtain ⟨hpath, hmem⟩ := mem_here hmem
    by_cases hreq : f.presence = .required
    · rw [if_pos hreq] at hmem
      rw [hpath, List.mem_singleton.1 hmem, Addresses, if_pos rfl]
      exact ⟨[], fields, extra, map, f, rfl, .here _ _, hf, hreq,
        Validator.dictFind_eq_none.1 hfind⟩
    · rw [if_neg hreq] at hmem
      cases hmem

theorem checkExtras_located {fields : List (FieldExpr TypeExpr)} {declared extra : ExtraBehavior}
    {map unknown : OwnedDict} (hsub : ∀ p ∈ unknown, p ∈ map) :
    ∀ f ∈ (checkExtras extra unknown).2,
      Addresses (.struct fields declared) (.dict map) f.1 f.2 := by
  intro f hf
  cases extra with
  | forbid =>
    obtain ⟨p, hp, rfl⟩ := List.mem_map.1 hf
    have hcode : (extraKey p.1).1 ≠ requiredMissing.1 := by simp [extraKey, requiredMissing]
    rw [Addresses, if_neg hcode]
    exact ⟨p.2, .key (hsub p hp) (.here p.2)⟩
  | ignore | allow => cases hf

theorem check_located : (check o e root v).Located e v := by
  have hfail (e : TypeExpr) (v : OwnedValue) (expected : String) :
      (Verdict.here none [typeMismatch expected]).Located e v :=
    Verdict.located_here fun i hi => List.mem_singleton.1 hi ▸ ordinary_typeMismatch expected
  induction e generalizing root v with
  | primitive p =>
    cases p with
    | any => exact Verdict.located_here (by simp)
    | bool => exact Verdict.located_coerced (fun _ => toBool_error) (by simp)
    | int c => exact Verdict.located_coerced (fun _ => toInt_error) c.violations_ordinary
    | float c => exact Verdict.located_coerced (fun _ => toFloat_error) c.violations_ordinary
    | string c => exact Verdict.located_coerced (fun _ => toText_error) c.violations_ordinary
    | symbol => exact Verdict.located_coerced (fun _ => toSymbol_error) (by simp)
  | enum => exact Verdict.located_coerced (fun _ => toVariant_error) (by simp)
  | optional inner ih =>
    by_cases hv : v = .null
    · rw [hv]
      exact Verdict.located_here (by simp)
    · have hcheck : check o (.optional inner) root v = check o inner root v := by
        cases v <;> first | exact absurd rfl hv | rfl
      rw [hcheck]
      exact fun f hf => (ih f hf).within [] id (.optional hv)
  | list of c ih =>
    cases v with
    | list items =>
      intro f hf
      rcases List.mem_append.1 hf with hf | hf
      · obtain ⟨⟨element, i⟩, hmem, hf⟩ := List.mem_flatMap.1 hf
        obtain ⟨item, hitem, rfl⟩ :
            ∃ item, items[i]? = some item ∧ check o of false item = element := by
          simpa [List.mem_zipIdx_iff_getElem?] using hmem
        obtain ⟨g, hg, rfl⟩ := mem_under hf
        exact (ih g hg).within [.index i] (.index hitem) (.item hitem)
      · exact c.violations_located _ f hf
    | _ => exact hfail _ _ _
  | dict of c ih =>
    cases v with
    | dict map =>
      intro f hf
      rcases List.mem_append.1 hf with hf | hf
      · obtain ⟨_, hmem, hf⟩ := List.mem_flatMap.1 hf
        obtain ⟨⟨key, value⟩, hentry, rfl⟩ := List.mem_map.1 hmem
        obtain ⟨g, hg, rfl⟩ := mem_under hf
        exact (ih g hg).within [.key key] (.key hentry) (.entry hentry)
      · exact c.violations_located _ f hf
    | _ => exact hfail _ _ _
  | struct fields extra ih =>
    cases v with
    | dict map =>
      intro f hf
      rcases List.mem_append.1 hf with hf | hf
      · obtain ⟨_, hmem, hf⟩ := List.mem_flatMap.1 hf
        rw [checkFields_eq_map] at hmem
        obtain ⟨field, hfield, rfl⟩ := List.mem_map.1 hmem
        exact checkField_located hfield (fun _ => ih field hfield) f hf
      · exact checkExtras_located (fun p hp => List.mem_of_mem_filter hp) f hf
    | _ => exact hfail _ _ _

/-! ## Reports -/

/-- What validating an id below the root says about a value. -/
def SchemaIr.report (schema : SchemaIr) (o : ValidationOptions) (id : NodeId) (v : OwnedValue) :
    Verdict :=
  check o (schema.unfold id) false v

theorem SchemaIr.report_list {schema : SchemaIr} {id of : NodeId} {c : CollectionConstraints}
    (h : schema.arena.get id = some (.list of c)) (items : List OwnedValue) :
    (schema.report o id (.list items)).findings =
      (items.zipIdx.flatMap fun (item, i) =>
        Report.under (.index i) (schema.report o of item).findings) ++
      Report.here (c.violations
        (items.filterMap fun item => (schema.report o of item).output).length) := by
  simp only [report]
  rw [schema.unfold_of_get h]
  simp [Node.expand, check, Verdict.list, List.zipIdx_map, List.flatMap_map, List.filterMap_map]

theorem SchemaIr.report_dict {schema : SchemaIr} {id of : NodeId} {c : CollectionConstraints}
    (h : schema.arena.get id = some (.dict of c)) (map : OwnedDict) :
    (schema.report o id (.dict map)).findings =
      (map.flatMap fun (key, value) =>
        Report.under (.key key) (schema.report o of value).findings) ++
      Report.here (c.violations
        (map.filterMap fun (key, value) =>
          (schema.report o of value).output.map (key, ·)).length) := by
  simp only [report]
  rw [schema.unfold_of_get h]
  simp [Node.expand, check, Verdict.dict, List.flatMap_map, List.filterMap_map]

/-- Validating a node below the root leaves the path and the earlier issues as they are, appends
findings that do not depend on them, and returns what does not depend on them. The findings
address places in the value. Those of lists and dicts are the findings of the elements, in order,
and then the ones about the size. -/
theorem validateNode_report (schema : SchemaIr) (o : ValidationOptions) :
    (∀ id, id.index < schema.arena.len → ∀ v p issues, p ≠ [] →
      (Validator.validateNode o schema id v).run ⟨p, issues⟩ = some ((schema.report o id v).output,
        ⟨p, issues ++ (schema.report o id v).findings.map fun f =>
          ⟨formatPath (p ++ f.1), f.2.1, f.2.2⟩⟩)) ∧
    (∀ id v, ∀ f ∈ (schema.report o id v).findings, Addresses (schema.unfold id) v f.1 f.2) ∧
    (∀ id of c items, schema.arena.get id = some (.list of c) →
      (schema.report o id (.list items)).findings =
        (items.zipIdx.flatMap fun (item, i) =>
          Report.under (.index i) (schema.report o of item).findings) ++
        Report.here (c.violations
          (items.filterMap fun item => (schema.report o of item).output).length)) ∧
    ∀ id of c map, schema.arena.get id = some (.dict of c) →
      (schema.report o id (.dict map)).findings =
        (map.flatMap fun (key, value) =>
          Report.under (.key key) (schema.report o of value).findings) ++
        Report.here (c.violations (map.filterMap fun (key, value) =>
          (schema.report o of value).output.map (key, ·)).length) := by
  refine ⟨fun id hid v p issues hp => ?_, fun id v => check_located,
    fun id of c items h => schema.report_list h items,
    fun id of c map h => schema.report_dict h map⟩
  rw [Validator.validateNode_gives schema hid v p issues, List.isEmpty_eq_false_iff.2 hp]
  rfl

end RustlyCore
