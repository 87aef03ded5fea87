import RustlyCore.Schema.Parser
import RustlyCore.Schema.Sharing
import RustlyCore.Validation.Value

/-!
# Compiled schemas (`schema/compiled.rs`, `schema/compiler.rs`)

Next to the IR a compiled schema holds its options and the materialisation plan: the instance
variable and the symbol of every field of the root struct.
-/

namespace RustlyCore

structure MaterializeEntry where
  name : String
  ivarId : String
  symbolId : String

structure MaterializePlan where
  entries : List MaterializeEntry

structure CompiledSchema where
  summary : String
  ir : SchemaIr
  plan : MaterializePlan
  options : ValidationOptions

/-- `CompiledSchema::new`, without the id that it draws. -/
def CompiledSchema.new (summary : String) (ir : SchemaIr) (plan : MaterializePlan) :
    CompiledSchema :=
  ⟨summary, ir, plan, {}⟩

variable {ε : Type} (x : Externals)

/-- `CString::new(..).expect(..)` panics on a zero byte. -/
def cString (s : String) : Result ε String :=
  if Text.containsNul s then .panic else return s

def materializeEntry (name : String) : Result ε MaterializeEntry := do
  let key ← cString name
  let symbolId ← intern x key
  let ivar ← cString ("@" ++ name)
  let ivarId ← intern x ivar
  return ⟨name, ivarId, symbolId⟩

def materializeEntries : List StructField → Result ε (List MaterializeEntry)
  | [] => return []
  | field :: fields => do
    let entry ← materializeEntry x field.name
    let entries ← materializeEntries fields
    return entry :: entries

/-- Only a root that is a struct itself has a plan. -/
def buildMaterializePlan (ir : SchemaIr) : Result ε MaterializePlan :=
  match ir.arena.get ir.root with
  | some (.struct fields _) => do return ⟨← materializeEntries x fields⟩
  | some _ => return ⟨[]⟩
  | none => .panic

/-! ## Compiling -/

namespace RubyJson

def rubyString (value : RubyValue) : Result CompileError String := do
  match ← stringToOwned value with
  | some string => return string
  | none => .fail (.jsonConversion "Ruby string conversion yielded null pointer")

/-- A String is taken for the JSON text itself. -/
def coerce (value : RubyValue) : Result CompileError String :=
  match value with
  | .string _ _ => rubyString value
  | _ =>
    match x.generate value with
    | .error exception => .raise exception
    | .ok result =>
      match result with
      | .string _ _ => rubyString result
      | _ => .fail (.jsonConversion "JSON.generate returned a non-string value")

end RubyJson

/-- `truncate` panics within a character. -/
def summaryFromValue (value : JsonValue) : Result ε String :=
  let summary := x.display value
  match value with
  | .object _ | .array _ =>
    if summary.utf8ByteSize > 200 then
      match String.fromUTF8? (summary.toUTF8.extract 0 200) with
      | some cut => return cut.push '…'
      | none => .panic
    else return summary
  | _ => return summary

def SchemaCompiler.compile (schemaAst : RubyValue) : Result CompileError CompiledSchema := do
  let jsonSource ← RubyJson.coerce x schemaAst
  match x.fromStr jsonSource with
  | .error message => .fail (.json message)
  | .ok jsonValue =>
    match SchemaDocument.fromValue x jsonValue with
    | .error error => .fail error
    | .ok document =>
      let summary ← summaryFromValue x jsonValue
      let ir := buildIr document
      let plan ← buildMaterializePlan x ir
      return .new summary ir plan

/-! ## What a plan holds -/

variable {x}

def MaterializeEntry.named (name : String) : MaterializeEntry := ⟨name, "@" ++ name, name⟩

theorem cString_ok {s t : String} (h : cString s = (.ok t : Result ε String)) : t = s := by
  rw [cString] at h
  split at h
  · cases h
  · cases h
    rfl

theorem intern_ok {name id : String} (h : intern x name = (.ok id : Result ε String)) :
    id = name := by
  rw [intern] at h
  split at h
  · cases h
    rfl
  · cases h

theorem materializeEntry_ok {name : String} {entry : MaterializeEntry}
    (h : materializeEntry x name = (.ok entry : Result ε _)) : entry = .named name := by
  obtain ⟨key, hkey, h⟩ := Fallible.bind_eq_ok.1 h
  obtain ⟨symbolId, hsymbol, h⟩ := Fallible.bind_eq_ok.1 h
  obtain ⟨ivar, hivar, h⟩ := Fallible.bind_eq_ok.1 h
  obtain ⟨ivarId, hivarId, h⟩ := Fallible.bind_eq_ok.1 h
  cases h
  rw [intern_ok hsymbol, cString_ok hkey, intern_ok hivarId, cString_ok hivar]
  rfl

theorem materializeEntries_ok {fields : List StructField} {entries : List MaterializeEntry}
    (h : materializeEntries x fields = (.ok entries : Result ε _)) :
    entries = fields.map fun f => .named f.name := by
  induction fields generalizing entries with
  | nil =>
    cases h
    rfl
  | cons field fields ih =>
    obtain ⟨entry, hentry, h⟩ := Fallible.bind_eq_ok.1 h
    obtain ⟨rest, hrest, h⟩ := Fallible.bind_eq_ok.1 h
    cases h
    rw [List.map_cons, materializeEntry_ok hentry, ih hrest]

/-- The names of a struct at the root. -/
def TypeExpr.plannedNames : TypeExpr → List String
  | .struct fields _ => fields.map (·.name)
  | _ => []

theorem buildMaterializePlan_ok {ir : SchemaIr} {plan : MaterializePlan}
    (h : buildMaterializePlan x ir = (.ok plan : Result ε _)) :
    plan.entries = (ir.unfold ir.root).plannedNames.map .named := by
  rw [buildMaterializePlan] at h
  cases hget : ir.arena.get ir.root with
  | none =>
    rw [hget] at h
    cases h
  | some node =>
    rw [hget] at h
    rw [SchemaIr.unfold_of_get hget]
    cases node with
    | struct fields extra =>
      obtain ⟨entries, hentries, h⟩ := Fallible.bind_eq_ok.1 h
      cases h
      rw [materializeEntries_ok hentries]
      simp [Node.expand, TypeExpr.plannedNames]
    | _ =>
      cases h
      rfl

/-- What a schema is compiled from. -/
theorem SchemaCompiler.compile_ok {schemaAst : RubyValue} {compiled : CompiledSchema}
    (h : SchemaCompiler.compile x schemaAst = .ok compiled) :
    ∃ source value document, RubyJson.coerce x schemaAst = .ok source ∧
      x.fromStr source = .ok value ∧ SchemaDocument.fromValue x value = .ok document ∧
      compiled.ir = buildIr document ∧
      buildMaterializePlan x compiled.ir =
        (.ok compiled.plan : Result CompileError MaterializePlan) := by
  obtain ⟨source, hsource, h⟩ := Fallible.bind_eq_ok.1 h
  split at h
  next => cases h
  next value hvalue =>
    split at h
    next => cases h
    next document hdocument =>
      obtain ⟨summary, -, h⟩ := Fallible.bind_eq_ok.1 h
      obtain ⟨plan, hplan, h⟩ := Fallible.bind_eq_ok.1 h
      cases h
      exact ⟨source, value, document, hsource, hvalue, hdocument, rfl, hplan⟩

/-- A compiled plan has an entry for each field of a struct at the root, in order. -/
theorem SchemaCompiler.compile_plan {schemaAst : RubyValue} {compiled : CompiledSchema}
    (h : SchemaCompiler.compile x schemaAst = .ok compiled) :
    compiled.plan.entries = (compiled.ir.unfold compiled.ir.root).plannedNames.map .named := by
  obtain ⟨_, _, _, -, -, -, -, hplan⟩ := SchemaCompiler.compile_ok h
  exact buildMaterializePlan_ok hplan

end RustlyCore
