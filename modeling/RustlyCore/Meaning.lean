import RustlyCore.Build
import RustlyCore.Panics
import RustlyCore.Schema.Rendering

/-!
# What a compiled schema means

From the text of a schema to the verdict on an input: a schema compiles exactly if its text can be
read and its root can be planned, and what is compiled accepts what the conversion relation accepts
at the expression that was read.
-/

namespace RustlyCore
open SchemaCompiler (read)

variable {x : Externals}

/-! ## Compiling -/

/-- The schema argument is the text of this expression. -/
def Declares (x : Externals) (schemaAst : RubyValue) (value : JsonValue) (e : TypeExpr) : Prop :=
  ∃ source, RubyJson.coerce x schemaAst = .ok source ∧ x.fromStr source = .ok value ∧
    read x value none = some e

/-- A text declares what it is parsed to and read as, and nothing else. -/
theorem declares_text_iff {source : String} (hnul : Text.containsNul source = false)
    {j value : JsonValue} (hsource : x.fromStr source = .ok j) {e e' : TypeExpr}
    (hread : read x j none = some e) :
    Declares x (.utf8Str source) value e' ↔ value = j ∧ e' = e := by
  constructor
  · rintro ⟨source', hcoerce, hvalue, hread'⟩
    cases (coerce_text hnul).symm.trans hcoerce
    cases hsource.symm.trans hvalue
    cases hread.symm.trans hread'
    exact ⟨rfl, rfl⟩
  · rintro ⟨rfl, rfl⟩
    exact ⟨source, coerce_text hnul, hsource, hread⟩

theorem fromValue_eq_ok {value : JsonValue} {e : TypeExpr} :
    SchemaDocument.fromValue x value = .ok e ↔ read x value none = some e :=
  ⟨SchemaCompiler.read_of_ok, fun h => SchemaCompiler.ok_of_read h _⟩

theorem TypeExpr.Same.plannedNames {e e' : TypeExpr} (h : e.Same e') :
    e.plannedNames = e'.plannedNames := by
  cases e with
  | struct fields extra => cases e' <;> first | exact h.elim | exact h.1.names
  | _ => cases e' <;> first | exact h.elim | rfl

/-- The plan of a built schema is that of its expression. -/
theorem buildIr_plannable {e : TypeExpr} (he : e.nodeCount < 2 ^ 32) :
    Fallible.Returns (buildMaterializePlan x (buildIr e) : Result CompileError MaterializePlan) ↔
      ∀ name ∈ e.plannedNames, Plannable x name := by
  have hlen : (buildIr e).arena.len ≤ 2 ^ 32 :=
    (buildTypeExpr_len_le e {}).trans (by simpa [SchemaArena.len] using he.le)
  rw [← (buildIr_unfold hlen).1.plannedNames]
  obtain ⟨fields, hnames, hplan⟩ | ⟨hnames, hplan⟩ :=
    buildMaterializePlan_cases (x := x) (buildIr e)
  · rw [hnames, hplan]
    exact Fallible.returns_bind_pure.trans materializeEntries_returns
  · rw [hnames, hplan]
    exact iff_of_true ⟨_, rfl⟩ (List.forall_mem_nil _)

theorem schemaCompile_eq_ok {schemaAst : RubyValue} {compiled : CompiledSchema} :
    SchemaCompiler.compile x schemaAst = .ok compiled ↔ ∃ value e summary plan,
      Declares x schemaAst value e ∧
      summaryFromValue x value = (.ok summary : Result CompileError String) ∧
      buildMaterializePlan x (buildIr e) = (.ok plan : Result CompileError MaterializePlan) ∧
      compiled = .new summary (buildIr e) plan := by
  constructor
  · intro h
    obtain ⟨source, hsource, h⟩ := Fallible.bind_eq_ok.1 h
    split at h
    next => cases h
    next value hvalue =>
      split at h
      next => cases h
      next e he =>
        obtain ⟨summary, hsummary, h⟩ := Fallible.bind_eq_ok.1 h
        obtain ⟨plan, hplan, h⟩ := Fallible.bind_eq_ok.1 h
        cases h
        exact ⟨value, e, summary, plan, ⟨source, hsource, hvalue, fromValue_eq_ok.1 he⟩, hsummary,
          hplan, rfl⟩
  · rintro ⟨value, e, summary, plan, ⟨source, hsource, hvalue, he⟩, hsummary, hplan, rfl⟩
    simp only [SchemaCompiler.compile, hsource, Fallible.ok_bind, hvalue, fromValue_eq_ok.2 he,
      hsummary, hplan]
    rfl

theorem compile_eq_ok {schemaAst opts : RubyValue} {compiled : CompiledSchema} :
    compile x schemaAst opts = .ok compiled ↔ ∃ value e summary plan options,
      Declares x schemaAst value e ∧
      summaryFromValue x value = (.ok summary : Result CompileError String) ∧
      buildMaterializePlan x (buildIr e) = (.ok plan : Result CompileError MaterializePlan) ∧
      parseOptions opts = .ok options ∧ compiled = ⟨summary, buildIr e, plan, options⟩ := by
  constructor
  · intro h
    obtain ⟨compiled', options, hcompile, hoptions, rfl⟩ := compile_ok h
    obtain ⟨value, e, summary, plan, hdeclares, hsummary, hplan, rfl⟩ :=
      schemaCompile_eq_ok.1 hcompile
    exact ⟨value, e, summary, plan, options, hdeclares, hsummary, hplan, hoptions, rfl⟩
  · rintro ⟨value, e, summary, plan, options, hdeclares, hsummary, hplan, hoptions, rfl⟩
    have hcompile : SchemaCompiler.compile x schemaAst = .ok (.new summary (buildIr e) plan) :=
      schemaCompile_eq_ok.2 ⟨value, e, summary, plan, hdeclares, hsummary, hplan, rfl⟩
    simp only [compile, hoptions, hcompile, Fallible.attempt_ok, Fallible.ok_bind]
    rfl

/-! ## Accepting -/

/-- Under the options the input is prepared as a value that the expression accepts as `w`. -/
def Takes (x : Externals) (o : ValidationOptions) (e : TypeExpr) (input : RubyValue)
    (w : OwnedValue) : Prop :=
  ∃ prepared v, prepareInput input o.inputMode = .ok prepared ∧ prepared.value x = some v ∧
    Conv o e true v w

theorem validates_iff_takes {compiled : CompiledSchema} {e : TypeExpr}
    (hir : compiled.ir = buildIr e) (he : e.nodeCount < 2 ^ 32) {input : RubyValue}
    {w : OwnedValue} :
    compiled.Validates x input w ↔ Takes x compiled.options e input w := by
  have hlen : (buildIr e).arena.len ≤ 2 ^ 32 :=
    (buildTypeExpr_len_le e {}).trans (by simpa [SchemaArena.len] using he.le)
  simp only [CompiledSchema.Validates, hir, validatePreparedInput_accepts_iff,
    buildIr_accepts_iff hlen, Takes, exists_and_left]

/-- For every schema that compiles, from a text or from a Ruby value: its root reads as one
expression, validation accepts exactly what this expression converts, and a build materialises
exactly the conversion, by the names of the fields at the root. -/
theorem compiled_means {schemaAst opts : RubyValue} {compiled : CompiledSchema}
    (h : compile x schemaAst opts = .ok compiled) :
    ∃ value e, Declares x schemaAst value e ∧ parseOptions opts = .ok compiled.options ∧
      (e.nodeCount < 2 ^ 32 → ∀ input,
        (validate x compiled input .nil = .ok .valid ↔
          ∃ w, Takes x compiled.options e input w) ∧
        ∀ klass built, build x compiled input klass = .ok built ↔
          ∃ w, Takes x compiled.options e input w ∧ materializeInstance x klass attrIvarName w
            ⟨e.plannedNames.map .named⟩ compiled.options.freeze
            compiled.options.storeAttributes = .ok built) := by
  obtain ⟨value, e, summary, plan, options, hdeclares, -, hplan, hoptions, rfl⟩ := compile_eq_ok.1 h
  refine ⟨value, e, hdeclares, hoptions, fun he input => ?_⟩
  have hlen : (buildIr e).arena.len ≤ 2 ^ 32 :=
    (buildTypeExpr_len_le e {}).trans (by simpa [SchemaArena.len] using he.le)
  have hentries : plan = ⟨e.plannedNames.map .named⟩ := by
    obtain ⟨entries⟩ := plan
    rw [← (buildIr_unfold hlen).1.plannedNames, ← buildMaterializePlan_ok hplan]
  refine ⟨?_, fun klass built => ?_⟩
  · rw [validate_valid_iff]
    exact exists_congr fun w => validates_iff_takes rfl he
  · rw [build_ok_iff, hentries]
    exact exists_congr fun w => and_congr_left' (validates_iff_takes rfl he)

def tagExpr : TypeExpr := .struct [⟨"tag", .required, .primitive .symbol⟩] .forbid

/-- Every text under the one key of the schema with one symbol. -/
theorem compiled_means_tag : (∃ value, Declares tagExternals (.utf8Str tagSource) value tagExpr) ∧
    ∀ s, ∃ w, Takes tagExternals {} tagExpr (tagInput s) w := by
  have hread : read tagExternals (.object [("fields", tagFields), ("type", .string "struct")])
      none = some tagExpr :=
    SchemaCompiler.read_of_ok
      (parseTypeExpr_struct (by decide) (tagFields_parsed (by decide) SchemaCompiler.rootPath))
  obtain ⟨value, e, hdeclares, -, hmeans⟩ := compiled_means tagSchema_compiles
  obtain ⟨-, rfl⟩ := (declares_text_iff (by decide) rfl hread).1 hdeclares
  refine ⟨⟨value, hdeclares⟩, fun s => ?_⟩
  exact (hmeans (by decide) (tagInput s)).1.1 (validate_valid_iff.2 ⟨_, tag_validates s⟩)

/-! ## Writing a schema -/

/-- A summary is cut at its two hundredth byte, where a character must end. -/
def Summarised (x : Externals) (value : JsonValue) : Prop :=
  Fallible.Returns (summaryFromValue x value : Result CompileError String)

/-- For every expression that can be said, written as a schema text: the text compiles exactly if
its summary can be cut and the names at its root can be planned, and then accepts what the
expression does. -/
theorem written_means (hx : SchemaCompiler.LowerNames x) {e : TypeExpr} (hsayable : e.Sayable)
    (he : e.nodeCount < 2 ^ 32) {source : String} (hnul : Text.containsNul source = false)
    (hsource : x.fromStr source = .ok e.toJson) {opts : RubyValue} {o : ValidationOptions}
    (hoptions : parseOptions opts = .ok o) :
    ((∃ compiled, compile x (.utf8Str source) opts = .ok compiled) ↔
      Summarised x e.toJson ∧ ∀ name ∈ e.plannedNames, Plannable x name) ∧
    ∀ compiled, compile x (.utf8Str source) opts = .ok compiled → ∀ input,
      validate x compiled input .nil = .ok .valid ↔ ∃ w, Takes x o e input w := by
  have hread : read x e.toJson none = some e := SchemaCompiler.read_toJson hx e hsayable
  have hdeclares {value : JsonValue} {e' : TypeExpr} :
      Declares x (.utf8Str source) value e' ↔ value = e.toJson ∧ e' = e :=
    declares_text_iff hnul hsource hread
  refine ⟨?_, ?_⟩
  · rw [← buildIr_plannable he]
    constructor
    · rintro ⟨compiled, h⟩
      obtain ⟨value, e', summary, plan, options, hdeclares', hsummary, hplan, -, -⟩ :=
        compile_eq_ok.1 h
      obtain ⟨rfl, rfl⟩ := hdeclares.1 hdeclares'
      exact ⟨⟨summary, hsummary⟩, plan, hplan⟩
    · rintro ⟨⟨summary, hsummary⟩, plan, hplan⟩
      exact ⟨_, compile_eq_ok.2
        ⟨_, e, summary, plan, o, hdeclares.2 ⟨rfl, rfl⟩, hsummary, hplan, hoptions, rfl⟩⟩
  · intro compiled h input
    obtain ⟨value, e', summary, plan, options, hdeclares', -, -, hoptions', rfl⟩ :=
      compile_eq_ok.1 h
    obtain ⟨rfl, rfl⟩ := hdeclares.1 hdeclares'
    cases hoptions.symm.trans hoptions'
    rw [validate_valid_iff]
    exact exists_congr fun w => validates_iff_takes rfl he

def optionalFlag : TypeExpr := .optional (.primitive .bool)

def optionalFlagSource : String := "\x7b\"of\":\x7b\"type\":\"bool\"\x7d,\"type\":\"optional\"\x7d"

theorem written_means_flag :
    ∃ compiled, compile (.reading optionalFlagSource optionalFlag.toJson)
      (.utf8Str optionalFlagSource) .nil = .ok compiled := by
  have hx : SchemaCompiler.LowerNames (.reading optionalFlagSource optionalFlag.toJson) := by
    unfold SchemaCompiler.LowerNames
    decide
  have hsayable : optionalFlag.Sayable := by
    intro s hs
    simp only [optionalFlag, TypeExpr.subexprs, List.cons_append, List.nil_append, List.mem_cons,
      List.not_mem_nil, or_false] at hs
    rcases hs with rfl | rfl <;> exact ⟨trivial, trivial⟩
  have hshort : ¬ optionalFlagSource.utf8ByteSize > 200 := by decide
  have hsummary :
      Summarised (.reading optionalFlagSource optionalFlag.toJson) optionalFlag.toJson := by
    obtain ⟨map, hmap⟩ : ∃ map, optionalFlag.toJson = .object map := ⟨_, rfl⟩
    rw [hmap]
    refine ⟨optionalFlagSource, ?_⟩
    rw [summaryFromValue]
    exact if_neg hshort
  refine (written_means hx hsayable (by decide) (by decide) (Externals.reading_self _ _) rfl).1.2 ?_
  exact ⟨hsummary, by simp [optionalFlag, TypeExpr.plannedNames]⟩

end RustlyCore
