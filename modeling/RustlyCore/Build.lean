import RustlyCore.Core
import RustlyCore.Validation.Conversion
import RustlyCore.Validation.Monotone

/-!
# Validation and building agree

A build validates and then materialises. The second pass stops only at text that Ruby cannot take
as a Symbol or, at a zero byte, as the key of an extra. `rubyTexts` lists that text, so the two
calls agree exactly where all of it is accepted.
-/

namespace RustlyCore

inductive TextRole where
  | symbol
  | key
deriving DecidableEq

/-- Text that is turned into a Symbol or into the key of an extra. -/
structure RubyText where
  role : TextRole
  text : String

abbrev RubyText.NulFree (t : RubyText) : Prop := Text.containsNul t.text = false

/-- Whether the conversion of the text returns. -/
def RubyText.Accepted (x : Externals) (t : RubyText) : Prop :=
  t.NulFree ∧ (t.role = .symbol → x.interns t.text = true)

mutual
/-- What the conversion to Ruby turns into Symbols and keys. -/
def OwnedValue.rubyTexts : OwnedValue → List RubyText
  | .symbol s => [⟨.symbol, s⟩]
  | .list items => itemsTexts items
  | .dict map => entriesTexts .symbol map
  | .struct ⟨names, fields, extras⟩ => fieldsTexts names fields ++ optionalExtrasTexts extras
  | _ => []

def itemsTexts : List OwnedValue → List RubyText
  | [] => []
  | item :: items => item.rubyTexts ++ itemsTexts items

def entriesTexts (role : TextRole) : List (String × OwnedValue) → List RubyText
  | [] => []
  | (key, value) :: entries => ⟨role, key⟩ :: value.rubyTexts ++ entriesTexts role entries

def fieldsTexts : List String → List (Option OwnedValue) → List RubyText
  | name :: names, some value :: fields =>
    ⟨.symbol, name⟩ :: value.rubyTexts ++ fieldsTexts names fields
  | _ :: names, none :: fields => fieldsTexts names fields
  | _, _ => []

def optionalExtrasTexts : Option (List (String × OwnedValue)) → List RubyText
  | none => []
  | some extras => entriesTexts .key extras
end

open Fallible (Returns returns_bind)

section
variable {x : Externals}

theorem symbolToValue_returns (name : String) :
    Returns (symbolToValue x name) ↔ RubyText.Accepted x ⟨.symbol, name⟩ := by
  have hintern : Returns (intern x name : Result MaterializeError String) ↔
      x.interns name = true := by
    rw [intern]
    split <;> simp_all
  rw [symbolToValue]
  rw [Fallible.returns_guard, bind_pure_comp, Fallible.returns_map, hintern, Bool.not_eq_true]
  simp [RubyText.Accepted, RubyText.NulFree]

theorem attributeKeyValue_returns (name : String) :
    Returns (attributeKeyValue name) ↔ RubyText.Accepted x ⟨.key, name⟩ := by
  rw [attributeKeyValue]
  rw [Fallible.returns_guard, Bool.not_eq_true]
  simp [RubyText.Accepted, RubyText.NulFree]

theorem itemsToRuby_returns {items : List OwnedValue}
    (ih : ∀ v ∈ items, Returns (ownedValueToRuby x v) ↔ ∀ t ∈ v.rubyTexts, t.Accepted x) :
    Returns (itemsToRuby x items) ↔ ∀ t ∈ itemsTexts items, t.Accepted x := by
  induction items with
  | nil => simp [itemsToRuby, itemsTexts]
  | cons item items ihitems =>
    obtain ⟨hitem, hitems⟩ := List.forall_mem_cons.1 ih
    rw [itemsToRuby, itemsTexts, List.forall_mem_append, ← hitem, ← ihitems hitems]
    apply returns_bind
    intro rubyValue _
    rw [bind_pure_comp, Fallible.returns_map]

theorem buildHash_returns {map : OwnedDict}
    (ih : ∀ p ∈ map, Returns (ownedValueToRuby x p.2) ↔ ∀ t ∈ p.2.rubyTexts, t.Accepted x)
    (entries : List (RubyValue × RubyValue)) :
    Returns (buildHash x entries map) ↔ ∀ t ∈ entriesTexts .symbol map, t.Accepted x := by
  induction map generalizing entries with
  | nil => simp [buildHash, entriesTexts]
  | cons entry map ihmap =>
    obtain ⟨key, value⟩ := entry
    obtain ⟨hvalue, hmap⟩ := List.forall_mem_cons.1 ih
    rw [buildHash, entriesTexts, List.forall_mem_append, List.forall_mem_cons,
      ← symbolToValue_returns, ← hvalue, and_assoc]
    apply returns_bind
    intro symbol _
    apply returns_bind
    intro rubyValue _
    exact ihmap hmap _

theorem extrasToRuby_returns {extras : OwnedDict}
    (ih : ∀ p ∈ extras, Returns (ownedValueToRuby x p.2) ↔ ∀ t ∈ p.2.rubyTexts, t.Accepted x)
    (entries : List (RubyValue × RubyValue)) :
    Returns (extrasToRuby x entries extras) ↔ ∀ t ∈ entriesTexts .key extras, t.Accepted x := by
  induction extras generalizing entries with
  | nil => simp [extrasToRuby, entriesTexts]
  | cons entry extras ihextras =>
    obtain ⟨key, value⟩ := entry
    obtain ⟨hvalue, hextras⟩ := List.forall_mem_cons.1 ih
    rw [extrasToRuby, entriesTexts, List.forall_mem_append, List.forall_mem_cons,
      ← attributeKeyValue_returns, ← hvalue, and_comm (a := Returns _), and_assoc]
    apply returns_bind
    intro rubyValue _
    apply returns_bind
    intro keyValue _
    exact ihextras hextras _

theorem fieldsToRuby_returns {fields : List (Option OwnedValue)}
    (ih : ∀ v, some v ∈ fields →
      (Returns (ownedValueToRuby x v) ↔ ∀ t ∈ v.rubyTexts, t.Accepted x))
    (entries : List (RubyValue × RubyValue)) (names : List String) :
    Returns (fieldsToRuby x entries names fields) ↔
      ∀ t ∈ fieldsTexts names fields, t.Accepted x := by
  induction fields generalizing entries names with
  | nil => cases names <;> simp [fieldsToRuby, fieldsTexts]
  | cons field fields ihfields =>
    have hfields v (hv : some v ∈ fields) := ih v (List.mem_cons_of_mem _ hv)
    cases names with
    | nil => simp [fieldsToRuby, fieldsTexts]
    | cons name names =>
      cases field with
      | none =>
        rw [fieldsToRuby, fieldsTexts]
        exact ihfields hfields _ _
      | some value =>
        rw [fieldsToRuby, fieldsTexts, List.forall_mem_append, List.forall_mem_cons,
          ← symbolToValue_returns, ← ih value List.mem_cons_self, and_comm (a := Returns _),
          and_assoc]
        apply returns_bind
        intro rubyValue _
        apply returns_bind
        intro key _
        exact ihfields hfields _ _

/-- The conversion returns exactly where each text is accepted. -/
theorem ownedValueToRuby_returns (w : OwnedValue) :
    Returns (ownedValueToRuby x w) ↔ ∀ t ∈ w.rubyTexts, t.Accepted x := by
  induction w with
  | null | bool | int | float | string => simp [ownedValueToRuby, OwnedValue.rubyTexts]
  | symbol s =>
    rw [ownedValueToRuby, symbolToValue_returns]
    simp [OwnedValue.rubyTexts]
  | list items ih =>
    rw [ownedValueToRuby, bind_pure_comp, Fallible.returns_map, itemsToRuby_returns ih]
    rfl
  | dict map ih =>
    rw [ownedValueToRuby, bind_pure_comp, Fallible.returns_map, buildHash_returns ih]
    rfl
  | struct names fields extras ihfields ihextras =>
    rw [ownedValueToRuby, OwnedValue.rubyTexts, List.forall_mem_append,
      ← fieldsToRuby_returns ihfields []]
    apply returns_bind
    intro entries _
    rw [bind_pure_comp, Fallible.returns_map]
    cases extras with
    | none => simp [optionalExtrasToRuby, optionalExtrasTexts]
    | some extras =>
      rw [optionalExtrasToRuby, optionalExtrasTexts]
      exact extrasToRuby_returns (ihextras extras rfl) entries

/-! ## The instance -/

/-- The values that the plan finds in a struct. -/
def MaterializePlan.values (plan : MaterializePlan) (names : List String)
    (fields : List (Option OwnedValue)) : List OwnedValue :=
  plan.entries.filterMap (planned names fields)

/-- What a build turns into Symbols and keys. The root's own names are in the plan already. -/
def builtTexts (plan : MaterializePlan) (storeAttributes : Bool) : OwnedValue → List RubyText
  | .struct ⟨names, fields, extras⟩ =>
    (plan.values names fields).flatMap OwnedValue.rubyTexts ++
      (extras.getD []).flatMap fun extra =>
        extra.2.rubyTexts ++ if storeAttributes then [⟨.key, extra.1⟩] else []
  | _ => []

theorem storedValue_returns (freezeMode : FreezeMode) (value : OwnedValue) :
    Returns (storedValue x freezeMode value) ↔ ∀ t ∈ value.rubyTexts, t.Accepted x := by
  rw [storedValue]
  rw [bind_pure_comp, Fallible.returns_map, ownedValueToRuby_returns]

theorem storeFields_returns (freezeMode : FreezeMode) (names : List String)
    (fields : List (Option OwnedValue)) (building : Building) (entries : List MaterializeEntry) :
    Returns (storeFields x freezeMode names fields building entries) ↔
      ∀ v ∈ entries.filterMap (planned names fields), ∀ t ∈ v.rubyTexts, t.Accepted x := by
  induction entries generalizing building with
  | nil => simp [storeFields]
  | cons entry entries ih =>
    rw [storeFields]
    cases hplanned : planned names fields entry with
    | none =>
      rw [List.filterMap_cons_none hplanned]
      exact ih building
    | some value =>
      rw [List.filterMap_cons_some hplanned, List.forall_mem_cons, ← storedValue_returns freezeMode]
      exact returns_bind fun rubyValue _ => ih _

theorem storeFields_attributes {freezeMode : FreezeMode} {names : List String}
    {fields : List (Option OwnedValue)} {building building' : Building}
    {entries : List MaterializeEntry}
    (h : storeFields x freezeMode names fields building entries = .ok building') :
    building'.attributes.isSome = building.attributes.isSome := by
  induction entries generalizing building with
  | nil =>
    cases h
    rfl
  | cons entry entries ih =>
    rw [storeFields] at h
    split at h
    next => exact ih h
    next =>
      obtain ⟨rubyValue, -, h⟩ := Fallible.bind_eq_ok.1 h
      rw [ih h, Option.isSome_map]

theorem storeExtras_returns (freezeMode : FreezeMode) (building : Building) (extras : OwnedDict) :
    Returns (storeExtras x freezeMode building extras) ↔
      ∀ t ∈ extras.flatMap fun extra => extra.2.rubyTexts ++
        if building.attributes.isSome then [⟨.key, extra.1⟩] else [], t.Accepted x := by
  induction extras generalizing building with
  | nil => simp [storeExtras]
  | cons extra extras ih =>
    obtain ⟨key, value⟩ := extra
    rw [storeExtras, List.flatMap_cons, List.forall_mem_append, List.forall_mem_append,
      ← storedValue_returns freezeMode, and_assoc]
    apply returns_bind
    intro rubyValue _
    obtain ⟨attributes, ivars⟩ := building
    cases attributes with
    | none =>
      rw [ih]
      simp
    | some attributes =>
      rw [show (if (Building.mk (some attributes) ivars).attributes.isSome then
        [RubyText.mk .key (key, value).1] else []) = [⟨.key, key⟩] from rfl,
        List.forall_mem_singleton, ← attributeKeyValue_returns]
      exact returns_bind fun keyValue _ => ih _

/-- A build gets stuck at no other text than the listed one. -/
theorem materializeInstance_returns (klass : String) (attrIvar : Option String)
    (structure_ : OwnedStruct OwnedValue) (plan : MaterializePlan) (freezeMode : FreezeMode)
    (storeAttributes : Bool) :
    Returns (materializeInstance x klass attrIvar (.struct structure_) plan freezeMode
      storeAttributes) ↔
      ∀ t ∈ builtTexts plan storeAttributes (.struct structure_), t.Accepted x := by
  obtain ⟨names, fields, extras⟩ := structure_
  rw [materializeInstance, builtTexts, List.forall_mem_append, MaterializePlan.values,
    List.forall_mem_flatMap, ← storeFields_returns freezeMode]
  apply returns_bind
  intro building hbuilding
  rw [bind_pure_comp, Fallible.returns_map, storeExtras_returns, storeFields_attributes hbuilding]
  cases storeAttributes <;> rfl

/-! ## The two calls -/

/-- The input prepares and validates under the compiled options, with this output. -/
def CompiledSchema.Validates (x : Externals) (compiled : CompiledSchema) (input : RubyValue)
    (w : OwnedValue) : Prop :=
  ∃ prepared, prepareInput input compiled.options.inputMode = .ok prepared ∧
    validatePreparedInput x compiled.ir prepared compiled.options = some ⟨some w, []⟩

theorem validatePreparedInput_total (schema : SchemaIr) (input : PreparedInput)
    (o : ValidationOptions) : ∃ result, validatePreparedInput x schema input o = some result ∧
      (result.isValid = true → ∃ w, result = ⟨some w, []⟩) := by
  cases input with
  | owned prepared => exact validateOwned_total schema prepared o
  | json source =>
    simp only [validatePreparedInput, validateJson]
    cases (x.fromStr source).toOption with
    | some json => exact validateOwned_total schema (.fromJson json) o
    | none => exact ⟨_, rfl, nofun⟩

/-- A validation returns an output without issues, or issues. -/
theorem validatePreparedInput_cases (schema : SchemaIr) (input : PreparedInput)
    (o : ValidationOptions) :
    (∃ w, validatePreparedInput x schema input o = some ⟨some w, []⟩) ∨
      ∃ result, validatePreparedInput x schema input o = some result ∧ result.issues ≠ [] := by
  obtain ⟨result, hresult, hvalid⟩ := validatePreparedInput_total (x := x) schema input o
  by_cases hissues : result.issues = []
  · obtain ⟨w, rfl⟩ := hvalid (by rw [ValidationResult.isValid, hissues]; rfl)
    exact .inl ⟨w, hresult⟩
  · exact .inr ⟨result, hresult, hissues⟩

theorem validatePreparedInput_accepts_iff {schema : SchemaIr} {input : PreparedInput}
    {o : ValidationOptions} {w : OwnedValue} :
    validatePreparedInput x schema input o = some ⟨some w, []⟩ ↔
      ∃ v, input.value x = some v ∧ schema.Accepts o v w := by
  cases input with
  | owned prepared => simp [validatePreparedInput, PreparedInput.value, SchemaIr.Accepts]
  | json source =>
    simp only [validatePreparedInput, validateJson, PreparedInput.value]
    cases (x.fromStr source).toOption with
    | some json => simp [SchemaIr.Accepts]
    | none => simp

theorem validate_valid_iff {compiled : CompiledSchema} {input : RubyValue} :
    validate x compiled input .nil = .ok .valid ↔ ∃ w, compiled.Validates x input w := by
  simp only [validate, callOptions, CompiledSchema.Validates]
  cases hprepared : prepareInput input compiled.options.inputMode with
  | error stop => cases stop <;> simp [hprepared, Fallible.attempt]
  | ok prepared =>
    obtain ⟨w, hresult⟩ | ⟨result, hresult, hissues⟩ :=
      validatePreparedInput_cases (x := x) compiled.ir prepared compiled.options
    · simp [hprepared, validateNoGvl, hresult, ValidationResult.isValid]
    · have hne (w : OwnedValue) : result ≠ ⟨some w, []⟩ := by
        rintro rfl
        exact hissues rfl
      simp [hprepared, validateNoGvl, hresult, ValidationResult.isValid, hissues, hne]

theorem build_ok_iff {compiled : CompiledSchema} {input : RubyValue} {klass : String}
    {built : RubyValue} : build x compiled input klass = .ok built ↔
      ∃ w, compiled.Validates x input w ∧ materializeInstance x klass attrIvarName w compiled.plan
        compiled.options.freeze compiled.options.storeAttributes = .ok built := by
  simp only [build, CompiledSchema.Validates]
  cases hprepared : prepareInput input compiled.options.inputMode with
  | error stop => cases stop <;> simp [Fallible.attempt, raiseValidationError, Fallible.raise]
  | ok prepared =>
    obtain ⟨w, hresult⟩ | ⟨result, hresult, hissues⟩ :=
      validatePreparedInput_cases (x := x) compiled.ir prepared compiled.options
    · simp only [Fallible.attempt_ok, Fallible.ok_bind, validateNoGvl, hresult, pure_bind,
        List.isEmpty_nil, Bool.not_true, Bool.false_eq_true, if_false, Except.ok.injEq,
        exists_eq_left', Option.some.injEq, ValidationResult.mk.injEq, and_true]
      exact Fallible.attempt_bind_eq_ok (fun _ => rfl) fun _ => Fallible.not_returns_raise _
    · have hne (w : OwnedValue) : result ≠ ⟨some w, []⟩ := by
        rintro rfl
        exact hissues rfl
      simp [validateNoGvl, hresult, hne, hissues, raiseValidationError, Fallible.raise]

theorem build_returns_iff {compiled : CompiledSchema} {input : RubyValue} {klass : String} :
    Returns (build x compiled input klass) ↔ ∃ w, compiled.Validates x input w ∧
      Returns (materializeInstance x klass attrIvarName w compiled.plan compiled.options.freeze
        compiled.options.storeAttributes) := by
  simp only [Returns, build_ok_iff, ← exists_and_left]
  exact exists_comm

theorem CompiledSchema.Validates.unique {compiled : CompiledSchema} {input : RubyValue}
    {w w' : OwnedValue} (h : compiled.Validates x input w) (h' : compiled.Validates x input w') :
    w = w' := by
  obtain ⟨prepared, hprepared, hw⟩ := h
  obtain ⟨prepared', hprepared', hw'⟩ := h'
  cases hprepared.symm.trans hprepared'
  cases hw.symm.trans hw'
  rfl

theorem CompiledSchema.Validates.struct {compiled : CompiledSchema} {input : RubyValue}
    {w : OwnedValue} {fields : List StructField} {extra : ExtraBehavior}
    (hroot : compiled.ir.arena.get compiled.ir.root = some (.struct fields extra))
    (h : compiled.Validates x input w) : ∃ structure_, w = .struct structure_ := by
  obtain ⟨prepared, -, h⟩ := h
  obtain ⟨v, -, h⟩ := validatePreparedInput_accepts_iff.1 h
  rw [SchemaIr.accepts_iff, SchemaIr.unfold_of_get hroot] at h
  obtain ⟨_, _, _, -, rfl, -⟩ := h
  exact ⟨_, rfl⟩

/-- For a struct root, a build returns an instance exactly if the input validates and no text that
it turns into a Symbol or a key has a zero byte. Symbols are interned as US-ASCII. -/
theorem build_iff_validate (hinterns : ∀ s, Text.isAscii s = true → x.interns s = true)
    {compiled : CompiledSchema} {fields : List StructField} {extra : ExtraBehavior}
    (hroot : compiled.ir.arena.get compiled.ir.root = some (.struct fields extra))
    (input : RubyValue) (klass : String)
    (hascii : ∀ w, compiled.Validates x input w →
      ∀ t ∈ builtTexts compiled.plan compiled.options.storeAttributes w,
        t.role = .symbol → Text.isAscii t.text = true) :
    (∃ built, build x compiled input klass = .ok built) ↔
      validate x compiled input .nil = .ok .valid ∧ ∀ w, compiled.Validates x input w →
        ∀ t ∈ builtTexts compiled.plan compiled.options.storeAttributes w, t.NulFree := by
  apply build_returns_iff.trans
  rw [validate_valid_iff]
  constructor
  · intro ⟨w, hw, hreturns⟩
    obtain ⟨structure_, rfl⟩ := hw.struct hroot
    refine ⟨⟨_, hw⟩, ?_⟩
    intro w' hw' t ht
    cases hw.unique hw'
    exact ((materializeInstance_returns ..).1 hreturns t ht).1
  · intro ⟨⟨w, hw⟩, hfree⟩
    obtain ⟨structure_, rfl⟩ := hw.struct hroot
    refine ⟨_, hw, (materializeInstance_returns ..).2 ?_⟩
    intro t ht
    refine ⟨hfree _ hw t ht, ?_⟩
    intro hrole
    exact hinterns _ (hascii _ hw t ht hrole)

/-! ## A schema with one symbol -/

def tagSource : String := "\x7b\"fields\":[[\"required\",\"tag\",\"sym\"]],\"type\":\"struct\"\x7d"

def tagFields : JsonValue := .array [.array [.string "required", .string "tag", .string "sym"]]

def tagExternals : Externals :=
  .reading tagSource (.object [("fields", tagFields), ("type", .string "struct")])

def tagSchema : CompiledSchema where
  summary := tagSource
  ir := buildIr (.struct [⟨"tag", .required, .primitive .symbol⟩] .forbid)
  plan := ⟨[⟨"tag", "@tag", "tag"⟩]⟩
  options := {}

def tagInput (s : String) : RubyValue :=
  .hash ⟨"Hash", false⟩ [(.id2sym "tag", .utf8Str s)]

theorem tagFields_parsed {x : Externals} (hsym : x.toLowercase "sym" = "sym") (path : String) :
    SchemaCompiler.parseFieldsArray x tagFields path =
      .ok [⟨"tag", .required, .primitive .symbol⟩] := by
  simp [tagFields, SchemaCompiler.parseFieldsArray, SchemaCompiler.parseFieldEntries,
    SchemaCompiler.parseFieldEntry, SchemaCompiler.parsePresence, SchemaCompiler.parseTypeExpr,
    SchemaCompiler.parseNamedType, SchemaCompiler.inlineObject, JsonValue.asStr, hsym]
  rfl

theorem tagSchema_compiles : compile tagExternals (.utf8Str tagSource) .nil = .ok tagSchema :=
  compile_text rfl (by decide) rfl
    (parseTypeExpr_struct (by decide) (tagFields_parsed (by decide) _)) rfl rfl

theorem prepareInput_tag (s : String) :
    prepareInput (tagInput s) .auto = .ok (.owned (.dict [("tag", .string s)])) := by
  have himage : Image (tagInput s) (.dict [("tag", .string s)]) :=
    .hash _ (.cons (.mk (.symbol "tag") (.string _ s)) .nil)
  exact himage.prepared_hash

theorem conv_tag (s : String) :
    Conv {} (.struct [⟨"tag", .required, .primitive .symbol⟩] .forbid) true
      (.dict [("tag", .string s)]) (.struct ⟨["tag"], [some (.symbol s)], none⟩) :=
  ⟨_, _, _, rfl, rfl, ⟨.inl ⟨_, _, .head, rfl, s, .string rfl, rfl⟩, trivial⟩, rfl, rfl⟩

theorem tag_validates (s : String) : tagSchema.Validates tagExternals (tagInput s)
    (.struct ⟨["tag"], [some (.symbol s)], none⟩) :=
  ⟨_, prepareInput_tag s, validatePreparedInput_accepts_iff.2
    ⟨_, rfl, (buildIr_accepts_iff (by decide)).2 (conv_tag s)⟩⟩

theorem tag_builtTexts (s : String) :
    builtTexts tagSchema.plan tagSchema.options.storeAttributes
      (.struct ⟨["tag"], [some (.symbol s)], none⟩) = [⟨.symbol, s⟩] := rfl

/-- A zero byte in a valid symbol. -/
theorem build_not_iff_validate : ¬ ∀ (x : Externals) (schemaAst opts : RubyValue)
    (compiled : CompiledSchema) (fields : List StructField) (extra : ExtraBehavior),
    (∀ s, Text.isAscii s = true → x.interns s = true) →
    compile x schemaAst opts = .ok compiled →
    compiled.ir.arena.get compiled.ir.root = some (.struct fields extra) →
    ∀ input klass, validate x compiled input .nil = .ok .valid ↔
      ∃ built, build x compiled input klass = .ok built := by
  intro h
  have hvalid : validate tagExternals tagSchema (tagInput "a\x00b") .nil = .ok .valid :=
    validate_valid_iff.2 ⟨_, tag_validates _⟩
  have hbuilt := (h _ _ _ _ _ _ (fun _ hs => hs) tagSchema_compiles rfl _ "Object").1 hvalid
  obtain ⟨w, hw, hreturns⟩ := build_returns_iff.1 hbuilt
  cases hw.unique (tag_validates _)
  have haccepted := (materializeInstance_returns ..).1 hreturns
  rw [tag_builtTexts] at haccepted
  exact absurd (haccepted _ List.mem_cons_self).1 (by decide)

/-- A symbol without one. -/
theorem build_iff_validate_tag :
    ∃ built, build tagExternals tagSchema (tagInput "ab") "Object" = .ok built := by
  have hunique {w : OwnedValue} (hw : tagSchema.Validates tagExternals (tagInput "ab") w) :
      builtTexts tagSchema.plan tagSchema.options.storeAttributes w = [⟨.symbol, "ab"⟩] := by
    rw [hw.unique (tag_validates _), tag_builtTexts]
  refine (build_iff_validate (fun _ hs => hs) rfl _ _ fun w hw => ?_).2
    ⟨validate_valid_iff.2 ⟨_, tag_validates _⟩, fun w hw => ?_⟩
  · rw [hunique hw]
    decide
  · rw [hunique hw, List.forall_mem_singleton]
    decide

end
end RustlyCore
