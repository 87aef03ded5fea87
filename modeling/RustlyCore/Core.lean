import RustlyCore.Materialize
import RustlyCore.Validation.Input

/-!
# The module functions (`lib.rs`)

`compile`, `validate` and `build` as Ruby calls them. A call returns, raises, or ends in a panic or
in undefined behaviour.
-/

namespace RustlyCore

abbrev Call := Result Empty

/-! ## Options -/

/-- An option that is absent or nil keeps its default. -/
def optionValue (opts : RubyValue) (name : String) : Option RubyValue :=
  match opts.hashLookup (.id2sym name) with
  | some .nil => none
  | found => found

def parseFlag (opts : RubyValue) (name : String) (default : Bool) : Result String Bool :=
  match optionValue opts name with
  | none => return default
  | some value =>
    match value.toBool? with
    | some boolean => return boolean
    | none => .fail s!"opts[:{name}] must be true or false"

/-- An option that is a Symbol. -/
def parseSymbol {α : Type} (opts : RubyValue) (name : String) (default : α)
    (map : String → Except String α) : Result String α :=
  match optionValue opts name with
  | none => return default
  | some value => do
    match ← symbolToOwned value with
    | none => .fail s!"opts[:{name}] must be a Symbol"
    | some symbol =>
      match map symbol with
      | .ok a => return a
      | .error message => .fail message

def mapInputMode (symbol : String) : Except String InputMode :=
  match symbol with
  | "auto" => .ok .auto
  | "json" => .ok .json
  | "ruby" => .ok .ruby
  | other => .error s!"unknown input_mode :{other}"

def mapExtraBehavior (symbol : String) : Except String ExtraBehavior :=
  match symbol with
  | "forbid" => .ok .forbid
  | "ignore" => .ok .ignore
  | "allow" => .ok .allow
  | other => .error s!"unknown extra policy :{other}"

def mapFreezeMode (symbol : String) : Except String FreezeMode :=
  match symbol with
  | "deep" => .ok .deep
  | "shallow" => .ok .shallow
  | "none" => .ok .none
  | other => .error s!"unknown freeze mode :{other}"

/-- Unlike the other modes, `freeze` also takes a boolean. -/
def parseFreeze (opts : RubyValue) : Result String FreezeMode :=
  match optionValue opts "freeze" with
  | none => return .none
  | some value =>
    match value.toBool? with
    | some boolean => return if boolean then .deep else .none
    | none => do
      match ← symbolToOwned value with
      | none => .fail "opts[:freeze] must be false or a Symbol"
      | some symbol =>
        match mapFreezeMode symbol with
        | .ok mode => return mode
        | .error message => .fail message

def parseOptions (opts : RubyValue) : Result String ValidationOptions :=
  match opts with
  | .nil => return {}
  | .hash _ _ => do
    let strict ← parseFlag opts "strict" false
    let inputMode ← parseSymbol opts "input_mode" .auto mapInputMode
    let extraBehavior ← parseSymbol opts "extra" .forbid mapExtraBehavior
    let freeze ← parseFreeze opts
    let storeAttributes ← parseFlag opts "store_attributes" false
    return ⟨strict, inputMode, extraBehavior, freeze, storeAttributes⟩
  | _ => .fail "opts must be a Hash"

/-! ## Errors -/

/-- The meta data of a mismatch. -/
def mismatchMeta (expected actual : String) : JsonMap :=
  JsonMap.insert (JsonMap.insert [] "expected" (.string expected)) "actual" (.string actual)

def errorSetFromInputError : InputError → ErrorSet
  | .expectedString actual => ⟨[⟨"", "type_mismatch", mismatchMeta "string" actual⟩]⟩
  | .unsupportedType path actual => ⟨[⟨path, "type_mismatch", mismatchMeta "json_value" actual⟩]⟩
  | .invalidHashKey path actual =>
    ⟨[⟨path, "type_mismatch", mismatchMeta "string_or_symbol" actual⟩]⟩

def coerceMeta (origin value : String) : JsonMap :=
  JsonMap.insert (JsonMap.insert [] "from" (.string origin)) "value" (.string value)

def errorSetFromMaterializeError : MaterializeError → ErrorSet
  | .unsupportedRoot actual => ⟨[⟨"", "type_mismatch", mismatchMeta "struct" actual⟩]⟩
  | .invalidSymbol name => ⟨[⟨"", "coerce_failed", coerceMeta "sym" name⟩]⟩
  | .invalidKey name => ⟨[⟨"", "coerce_failed", coerceMeta "str" name⟩]⟩

def errorSetFromIssues (issues : List ValidationIssue) : ErrorSet :=
  ⟨issues.map fun issue => ⟨issue.path, issue.code, issue.metaMap⟩⟩

def raiseValidationError {α : Type} (errors : ErrorSet) : Call α :=
  .raise (.validationError errors)

/-! ## Calls -/

variable (x : Externals)

def compile (schemaAst opts : RubyValue) : Call CompiledSchema := do
  match ← Fallible.attempt (parseOptions opts) with
  | .error message => raiseArgumentError message
  | .ok options =>
    match ← Fallible.attempt (SchemaCompiler.compile x schemaAst) with
    | .ok compiled => return { compiled with options := options }
    | .error error => raiseArgumentError error.display

/-- `[true, nil]` or `[false, error_set]`. -/
inductive Answer where
  | valid
  | invalid (errors : ErrorSet)

/-- `validate_no_gvl`. -/
def validateNoGvl (schema : SchemaIr) (input : PreparedInput) (options : ValidationOptions) :
    Call ValidationResult :=
  match validatePreparedInput x schema input options with
  | some result => return result
  | none => .panic

/-- Without options of its own a call uses the compiled ones. -/
def callOptions (compiled : CompiledSchema) (opts : RubyValue) : Call ValidationOptions :=
  match opts with
  | .nil => return compiled.options
  | _ => do
    match ← Fallible.attempt (parseOptions opts) with
    | .ok parsed => return parsed
    | .error message => raiseArgumentError message

def validate (compiled : CompiledSchema) (input opts : RubyValue) : Call Answer := do
  let options ← callOptions compiled opts
  match ← Fallible.attempt (prepareInput input options.inputMode) with
  | .error error => return .invalid (errorSetFromInputError error)
  | .ok preparedInput =>
    let result ← validateNoGvl x compiled.ir preparedInput options
    return if result.isValid then .valid else .invalid (errorSetFromIssues result.issues)

/-- `ATTR_IVAR_NAME`. -/
def attrIvarName : Option String := some "@attributes"

def build (compiled : CompiledSchema) (input : RubyValue) (klass : String) : Call RubyValue := do
  match ← Fallible.attempt (prepareInput input compiled.options.inputMode) with
  | .error error => raiseValidationError (errorSetFromInputError error)
  | .ok preparedInput =>
    let result ← validateNoGvl x compiled.ir preparedInput compiled.options
    if !result.issues.isEmpty then raiseValidationError (errorSetFromIssues result.issues)
    else
      match result.output with
      | none => .panic
      | some prepared =>
        match ← Fallible.attempt (materializeInstance x klass attrIvarName prepared compiled.plan
            compiled.options.freeze compiled.options.storeAttributes) with
        | .ok instance_ => return instance_
        | .error error => raiseValidationError (errorSetFromMaterializeError error)

/-! ## Measuring (`Rustly::Core::Bench`) -/

def benchPrepare (input mode : RubyValue) : Call Answer := do
  match ← symbolToOwned mode with
  | none => raiseArgumentError "Rustly::Core::Bench.prepare expects a Symbol"
  | some modeString =>
    match mapInputMode modeString with
    | .error message => raiseArgumentError message
    | .ok inputMode =>
      match ← Fallible.attempt (prepareInput input inputMode) with
      | .ok _ => return .valid
      | .error error => return .invalid (errorSetFromInputError error)

/-- Without options of its own it takes the defaults. -/
def benchValidate (compiled : CompiledSchema) (input opts : RubyValue) :
    Call Answer := do
  match ← Fallible.attempt (parseOptions opts) with
  | .error message => raiseArgumentError message
  | .ok options =>
    match ← Fallible.attempt (prepareInput input options.inputMode) with
    | .error error => return .invalid (errorSetFromInputError error)
    | .ok preparedInput =>
      let result ← validateNoGvl x compiled.ir preparedInput options
      return if result.issues.isEmpty then .valid else .invalid (errorSetFromIssues result.issues)

variable {x}

/-- What is measured is what `validate` does, of a schema that was compiled without options. -/
theorem benchValidate_eq (compiled : CompiledSchema) (input opts : RubyValue) :
    benchValidate x compiled input opts =
      validate x { compiled with options := {} } input opts := by
  rw [benchValidate, validate]
  cases opts with
  | nil => rfl
  | _ =>
    rw [callOptions]
    · cases (Fallible.attempt (parseOptions _) : Call (Except String ValidationOptions)) with
      | error stop => rfl
      | ok parsed => cases parsed <;> rfl
    · intro h
      cases h

/-- An input that is not prepared is refused alike by the calls in its mode, under every schema. -/
theorem benchPrepare_invalid {input mode : RubyValue} {errors : ErrorSet}
    (h : benchPrepare input mode = .ok (.invalid errors)) :
    ∃ modeString inputMode, symbolToOwned mode = (.ok (some modeString) : Call _) ∧
      mapInputMode modeString = .ok inputMode ∧
      ∀ compiled : CompiledSchema, compiled.options.inputMode = inputMode →
        validate x compiled input .nil = .ok (.invalid errors) ∧
          ∀ klass, build x compiled input klass = raiseValidationError errors := by
  obtain ⟨symbol, hsymbol, h⟩ := Fallible.bind_eq_ok.1 h
  cases symbol with
  | none => cases h
  | some modeString =>
    cases hmode : mapInputMode modeString with
    | error message =>
      simp only [hmode] at h
      cases h
    | ok inputMode =>
      simp only [hmode] at h
      obtain ⟨prepared, hprepared, h⟩ := Fallible.bind_eq_ok.1 h
      cases prepared with
      | ok => cases h
      | error error =>
        cases h
        refine ⟨modeString, inputMode, hsymbol, hmode, ?_⟩
        intro compiled hcompiled
        rw [← hcompiled] at hprepared
        refine ⟨?_, fun klass => ?_⟩
        · rw [validate, callOptions, pure_bind, hprepared]
          rfl
        · rw [build, hprepared]
          rfl

theorem compile_ok {schemaAst opts : RubyValue} {compiled : CompiledSchema}
    (h : compile x schemaAst opts = .ok compiled) :
    ∃ compiled' options, SchemaCompiler.compile x schemaAst = .ok compiled' ∧
      parseOptions opts = .ok options ∧ compiled = { compiled' with options := options } := by
  obtain ⟨parsed, hparsed, h⟩ := Fallible.bind_eq_ok.1 h
  cases parsed with
  | error message => cases h
  | ok options =>
    obtain ⟨outcome, hcompile, h⟩ := Fallible.bind_eq_ok.1 h
    cases outcome with
    | error error => cases h
    | ok compiled' =>
      cases h
      exact ⟨compiled', options, Fallible.attempt_eq_ok.1 hcompile,
        Fallible.attempt_eq_ok.1 hparsed, rfl⟩

theorem coerce_text {source : String} (hnul : Text.containsNul source = false) :
    RubyJson.coerce x (.utf8Str source) = .ok source := by
  simp only [RubyJson.coerce, RubyValue.utf8Str, RubyJson.rubyString, stringToOwned]
  rw [if_neg (by simpa [Text.containsNul] using hnul), Text.fromUtf8Lossy_toUTF8]
  rfl

section
variable {source : String} {opts : RubyValue} {options : ValidationOptions} {json : JsonValue}
  {document : TypeExpr}

/-- A schema text that parses is summarised and planned. -/
theorem schemaCompile_text (hnul : Text.containsNul source = false)
    (hjson : x.fromStr source = .ok json)
    (hdocument : SchemaDocument.fromValue x json = .ok document) :
    SchemaCompiler.compile x (.utf8Str source) = do
      let summary ← summaryFromValue x json
      let plan ← buildMaterializePlan x (buildIr document)
      return .new summary (buildIr document) plan := by
  simp only [SchemaCompiler.compile, coerce_text hnul, Fallible.ok_bind, hjson, hdocument]

/-- What compiling a schema text takes. -/
theorem compile_text {summary : String} {plan : MaterializePlan}
    (hopts : parseOptions opts = .ok options) (hnul : Text.containsNul source = false)
    (hjson : x.fromStr source = .ok json)
    (hdocument : SchemaDocument.fromValue x json = .ok document)
    (hsummary : summaryFromValue x json = (.ok summary : Result CompileError String))
    (hplan : buildMaterializePlan x (buildIr document) =
      (.ok plan : Result CompileError MaterializePlan)) :
    compile x (.utf8Str source) opts = .ok ⟨summary, buildIr document, plan, options⟩ := by
  simp only [compile, hopts, schemaCompile_text hnul hjson hdocument, hsummary, hplan,
    Fallible.attempt_ok, Fallible.ok_bind]
  rfl

/-- A panic reaches the caller. -/
theorem compile_text_panics (hopts : parseOptions opts = .ok options)
    (hnul : Text.containsNul source = false) (hjson : x.fromStr source = .ok json)
    (hdocument : SchemaDocument.fromValue x json = .ok document)
    (hpanics : (do
      let summary ← summaryFromValue x json
      let plan ← buildMaterializePlan x (buildIr document)
      return CompiledSchema.new summary (buildIr document) plan : Result CompileError _) =
        .panic) :
    compile x (.utf8Str source) opts = .panic := by
  simp only [compile, hopts, schemaCompile_text hnul hjson hdocument, hpanics,
    Fallible.attempt_ok, Fallible.ok_bind]
  rfl

end

/-- A struct of which only the fields are given. -/
theorem parseTypeExpr_struct {fieldsValue : JsonValue} {path : String}
    {fields : List (FieldExpr TypeExpr)} (hstruct : x.toLowercase "struct" = "struct")
    (hfields : SchemaCompiler.parseFieldsArray x fieldsValue path = .ok fields) :
    SchemaCompiler.parseTypeExpr x
      (.object [("fields", fieldsValue), ("type", .string "struct")]) none path =
      .ok (.struct fields .forbid) := by
  have htype : SchemaCompiler.parseStructType x none [("fields", fieldsValue)] path =
      (do return .struct (← SchemaCompiler.parseFieldsArray x fieldsValue path) .forbid) := by
    rw [SchemaCompiler.parseStructType.eq_def]
    rfl
  rw [SchemaCompiler.parseTypeExpr]
  change SchemaCompiler.parseNamedType x "struct" _ _ _ = _
  rw [SchemaCompiler.parseNamedType.eq_def, hstruct]
  change SchemaCompiler.parseStructType x none [("fields", fieldsValue)] path = _
  rw [htype, hfields]
  rfl

end RustlyCore
