import RustlyCore.Keys
import RustlyCore.Core
import RustlyCore.Schema.Names
import RustlyCore.Validation.Limits

/-!
# Extra policies (`lib/rustly/core.rb`)

The Ruby wrapper merges the caller's options over defaults that forbid extras. The struct at the
root of the input follows the options, whatever it declares itself; every struct below follows its
declaration.
-/

namespace RustlyCore

/-! ## The wrapper -/

namespace Wrapper

def defaultOptions : List (RubyValue × RubyValue) :=
  [(.id2sym "strict", .bool false), (.id2sym "extra", .id2sym "forbid"),
    (.id2sym "input_mode", .id2sym "auto"), (.id2sym "freeze", .id2sym "none"),
    (.id2sym "store_attributes", .bool false)]

/-- `key.respond_to?(:to_sym) ? key.to_sym : key`. Only Strings and Symbols respond. -/
def toSym : RubyValue → Call RubyValue
  | .string _ bytes =>
    match String.fromUTF8? bytes with
    | some name => return .id2sym name
    | none => .raise .encodingError
  | key => return key

def symbolizeKeys (acc : List (RubyValue × RubyValue)) :
    List (RubyValue × RubyValue) → Call (List (RubyValue × RubyValue))
  | [] => return acc
  | (key, value) :: hash => do
    let symKey ← toSym key
    symbolizeKeys (hashAset acc symKey value) hash

/-- `Hash#merge`. -/
def merge (entries : List (RubyValue × RubyValue)) :
    List (RubyValue × RubyValue) → List (RubyValue × RubyValue)
  | [] => entries
  | (key, value) :: other => merge (hashAset entries key value) other

/-- The options are nil or a Hash, given by its entries. -/
def compile (x : Externals) (schemaAst : RubyValue)
    (opts : Option (List (RubyValue × RubyValue))) : Call CompiledSchema := do
  let normalized := merge defaultOptions (← symbolizeKeys [] (opts.getD []))
  RustlyCore.compile x schemaAst (.hash ⟨"Hash", false⟩ normalized)

/-- A String or a Symbol of this name is a key. -/
def Mentions (opts : Option (List (RubyValue × RubyValue))) (name : String) : Prop :=
  ∃ p ∈ opts.getD [], SameKey name p.1

variable {name : String}

theorem sameKey_of_symbol {key : RubyValue} (h : key.sameKey (.id2sym name) = true) :
    SameKey name key := by
  obtain ⟨_, _, _, -, hname⟩ | ⟨_, hkey, hname⟩ := RubyValue.sameKey_iff.1 h
  · cases hname
  · rw [hkey, ← RubyValue.symbol.inj hname]
    exact .symbol name

theorem toSym_sameKey {key symKey : RubyValue} (hkey : toSym key = .ok symKey)
    (h : symKey.sameKey (.id2sym name) = true) : SameKey name key := by
  cases key with
  | string basic bytes =>
    rw [toSym] at hkey
    split at hkey
    next s hs =>
      cases hkey
      have hbytes : (allocStrFromBytes bytes : Result InputError String) = .ok s := by
        rw [allocStrFromBytes, hs]
        rfl
      rw [allocStrFromBytes_ok.1 hbytes, RubyValue.sameKey_id2sym.1 h]
      exact .string basic name
    next => cases hkey
  | _ =>
    cases hkey
    exact sameKey_of_symbol h

/-- No key is the Symbol of this name. -/
def Lacks (entries : List (RubyValue × RubyValue)) (name : String) : Prop :=
  ∀ p ∈ entries, p.1.sameKey (.id2sym name) = false

theorem symbolizeKeys_lacks {hash acc out : List (RubyValue × RubyValue)} (hacc : Lacks acc name)
    (hhash : ¬ ∃ p ∈ hash, SameKey name p.1) (h : symbolizeKeys acc hash = .ok out) :
    Lacks out name := by
  induction hash generalizing acc with
  | nil =>
    cases h
    exact hacc
  | cons p hash ih =>
    obtain ⟨symKey, hsym, h⟩ := Fallible.bind_eq_ok.1 h
    have hrest : ¬ ∃ q ∈ hash, SameKey name q.1 := by
      rintro ⟨q, hq, hsame⟩
      exact hhash ⟨q, List.mem_cons_of_mem _ hq, hsame⟩
    have hkey : symKey.freeze.sameKey (.id2sym name) = false := by
      rw [RubyValue.sameKey_freeze, Bool.eq_false_iff]
      exact fun hsame => hhash ⟨p, List.mem_cons_self, toSym_sameKey hsym hsame⟩
    refine ih ?_ hrest h
    intro q hq
    exact (forall_hashAset (P := fun key => key.sameKey (.id2sym name) = false)
      (Q := fun _ => True) (fun q hq => ⟨hacc q hq, trivial⟩) hkey trivial q hq).1

theorem hashLookup_merge (basic : RBasic) (entries : List (RubyValue × RubyValue))
    {other : List (RubyValue × RubyValue)} (h : Lacks other name) :
    (RubyValue.hash basic (merge entries other)).hashLookup (.id2sym name) =
      (RubyValue.hash basic entries).hashLookup (.id2sym name) := by
  induction other generalizing entries with
  | nil => rfl
  | cons p other ih =>
    obtain ⟨hp, hother⟩ := List.forall_mem_cons.1 h
    rw [merge, ih _ hother, hashLookup_hashAset, if_neg (by rw [hp]; exact Bool.false_ne_true)]

theorem parseSymbol_id2sym {α : Type} {opts : RubyValue} (symbol : String) {a default : α}
    {map : String → Except String α} (hvalue : optionValue opts name = some (.id2sym symbol))
    (hnul : Text.containsNul symbol = false) (hmap : map symbol = .ok a) :
    parseSymbol opts name default map = .ok a := by
  simp only [parseSymbol, hvalue, symbolToOwned_id2sym hnul, Fallible.ok_bind, hmap]
  rfl

/-- Options that do not mention `extra` forbid extras. -/
theorem parseOptions_forbid {opts : Option (List (RubyValue × RubyValue))}
    (h : ¬ Mentions opts "extra") {symbolized : List (RubyValue × RubyValue)}
    (hsymbolized : symbolizeKeys [] (opts.getD []) = .ok symbolized) {options : ValidationOptions}
    (hoptions : parseOptions (.hash ⟨"Hash", false⟩ (merge defaultOptions symbolized)) =
      .ok options) : options.extraBehavior = .forbid := by
  have hlacks : Lacks symbolized "extra" :=
    symbolizeKeys_lacks (by simp [Lacks]) h hsymbolized
  have hvalue : optionValue (.hash ⟨"Hash", false⟩ (merge defaultOptions symbolized)) "extra" =
      some (.id2sym "forbid") := by
    rw [optionValue, hashLookup_merge _ _ hlacks]
    rfl
  obtain ⟨strict, -, hoptions⟩ := Fallible.bind_eq_ok.1 hoptions
  obtain ⟨inputMode, -, hoptions⟩ := Fallible.bind_eq_ok.1 hoptions
  obtain ⟨extraBehavior, hextra, hoptions⟩ := Fallible.bind_eq_ok.1 hoptions
  obtain ⟨freeze, -, hoptions⟩ := Fallible.bind_eq_ok.1 hoptions
  obtain ⟨storeAttributes, -, hoptions⟩ := Fallible.bind_eq_ok.1 hoptions
  cases hoptions
  exact Except.ok.inj (hextra.symm.trans (parseSymbol_id2sym _ hvalue (by decide) rfl))

theorem parseOptions_default : parseOptions (.hash ⟨"Hash", false⟩ defaultOptions) = .ok {} := by
  have hmode : parseSymbol (.hash ⟨"Hash", false⟩ defaultOptions) "input_mode" .auto mapInputMode =
      .ok .auto := parseSymbol_id2sym "auto" rfl (by decide) rfl
  have hextra : parseSymbol (.hash ⟨"Hash", false⟩ defaultOptions) "extra" .forbid
      mapExtraBehavior = .ok .forbid := parseSymbol_id2sym "forbid" rfl (by decide) rfl
  have hfreeze : parseFreeze (.hash ⟨"Hash", false⟩ defaultOptions) = .ok .none := by
    have hvalue : optionValue (.hash ⟨"Hash", false⟩ defaultOptions) "freeze" =
      some (.id2sym "none") := rfl
    have hboolean : (RubyValue.id2sym "none").toBool? = none := rfl
    have hsymbol : (symbolToOwned (.id2sym "none") : Result String (Option String)) =
      .ok (some "none") := symbolToOwned_id2sym (by decide)
    simp only [parseFreeze, hvalue, hboolean, hsymbol, Fallible.ok_bind]
    rfl
  simp only [parseOptions, hmode, hextra, hfreeze]
  rfl

theorem compile_forbid {x : Externals} {schemaAst : RubyValue}
    {opts : Option (List (RubyValue × RubyValue))} {compiled : CompiledSchema}
    (h : compile x schemaAst opts = .ok compiled) (hextra : ¬ Mentions opts "extra") :
    compiled.options.extraBehavior = .forbid := by
  obtain ⟨symbolized, hsymbolized, h⟩ := Fallible.bind_eq_ok.1 h
  obtain ⟨compiled', options, -, hoptions, rfl⟩ := compile_ok h
  exact parseOptions_forbid hextra hsymbolized hoptions

end Wrapper

/-! ## The policies -/

/-- What a policy does with the unknown entries of a struct: report each, keep all, or neither. -/
structure ExtraBehavior.Treats (policy : ExtraBehavior) (unknown : OwnedDict)
    (extras : Option OwnedDict) (found : Findings) : Prop where
  reported : ∀ p ∈ unknown, ([.key p.1], extraKey p.1) ∈ found ↔ policy = .forbid
  kept : ∀ p ∈ unknown, (∃ kept ∈ extras, p ∈ kept) ↔ policy = .allow
  dropped : ∀ p ∈ unknown,
    (([.key p.1], extraKey p.1) ∉ found ∧ ¬ ∃ kept ∈ extras, p ∈ kept) ↔ policy = .ignore

/-- What is found about a field is located at or below it. -/
theorem checkField_head {map : OwnedDict} {name : String} {presence : StructFieldPresence}
    {checkType : OwnedValue → Verdict} {f : List PathSegment × Finding}
    (h : f ∈ (checkField map name presence checkType).findings) : f.1.head? = some (.key name) := by
  rw [checkField] at h
  split at h <;>
    obtain ⟨g, -, rfl⟩ := List.mem_map.1 h <;>
    rfl

theorem checkExtras_treats (policy : ExtraBehavior) {unknown : OwnedDict} {found : Findings}
    (h : ∀ p ∈ unknown, ([.key p.1], extraKey p.1) ∉ found) :
    policy.Treats unknown (checkExtras policy unknown).1
      (found ++ (checkExtras policy unknown).2) := by
  have hreported (p : String × OwnedValue) (hp : p ∈ unknown) :
      ([.key p.1], extraKey p.1) ∈ found ++ (checkExtras policy unknown).2 ↔ policy = .forbid := by
    rw [List.mem_append, or_iff_right (h p hp)]
    cases policy with
    | forbid => exact iff_of_true (List.mem_map.2 ⟨p, hp, rfl⟩) rfl
    | ignore => simp [checkExtras]
    | allow => simp [checkExtras]
  have hkept (p : String × OwnedValue) (hp : p ∈ unknown) :
      (∃ kept ∈ (checkExtras policy unknown).1, p ∈ kept) ↔ policy = .allow := by
    cases policy with
    | forbid => simp [checkExtras]
    | ignore => simp [checkExtras]
    | allow =>
      have hne : unknown.isEmpty = false := List.isEmpty_eq_false_iff_exists_mem.2 ⟨p, hp⟩
      refine iff_of_true ⟨unknown, ?_, hp⟩ rfl
      rw [checkExtras, hne]
      rfl
  refine ⟨hreported, hkept, fun p hp => ?_⟩
  rw [hreported p hp, hkept p hp]
  cases policy <;> simp

/-- The policy that the struct of a run follows: that of the options at the root of the input, its
own below. -/
def effectivePolicy (options : ValidationOptions) (path : List PathSegment)
    (extra : ExtraBehavior) : ExtraBehavior :=
  if path = [] then options.extraBehavior else extra

theorem run_struct {schema : SchemaIr} {id : NodeId} {fields : List StructField}
    {extra : ExtraBehavior} (hget : schema.arena.get id = some (.struct fields extra))
    (options : ValidationOptions) (map : OwnedDict) (path : List PathSegment)
    (issues : List ValidationIssue) :
    ∃ structure_, (Validator.validateNode options schema id (.dict map)).run ⟨path, issues⟩ =
        some (some (.struct structure_), ⟨path, issues ++ Report.rendered issueAt path
          (check options (schema.unfold id) path.isEmpty (.dict map)).findings⟩) ∧
      (effectivePolicy options path extra).Treats (unknownEntries (fields.map (·.name)) map)
        structure_.extras (check options (schema.unfold id) path.isEmpty (.dict map)).findings := by
  have hpolicy : (if path.isEmpty then options.extraBehavior else extra) =
      effectivePolicy options path extra := by
    cases path <;> rfl
  have hrun : (Validator.validateNode options schema id (.dict map)).run ⟨path, issues⟩ = _ :=
    run_node hget (.dict map) path issues
  rw [schema.unfold_of_get hget] at hrun ⊢
  simp only [Node.expand, check, Verdict.struct, List.map_map] at hrun ⊢
  rw [hpolicy] at hrun ⊢
  refine ⟨_, hrun, checkExtras_treats _ fun p hp hfound => ?_⟩
  obtain ⟨verdict, hverdict, hf⟩ := List.mem_flatMap.1 hfound
  rw [checkFields_eq_map] at hverdict
  obtain ⟨fieldExpr, hmem, rfl⟩ := List.mem_map.1 hverdict
  obtain ⟨field, hfield, rfl⟩ := List.mem_map.1 hmem
  have hname : p.1 = field.name := PathSegment.key.inj (Option.some.inj (checkField_head hf))
  obtain ⟨-, hunknown⟩ := List.mem_filter.1 hp
  rw [hname, List.contains_eq_mem, decide_eq_true (List.mem_map_of_mem hfield)] at hunknown
  cases hunknown

/-- At some place of the schema text a struct with these names declares this policy, or none if it
is `forbid`. -/
def DeclaresStruct (x : Externals) (schemaAst : RubyValue) (names : List String)
    (extra : ExtraBehavior) : Prop :=
  ∃ source value w fieldOptions entries,
    RubyJson.coerce x schemaAst = .ok source ∧ x.fromStr source = .ok value ∧
    SchemaCompiler.Reads x value none w fieldOptions ∧
    SchemaCompiler.declaredFields x w fieldOptions = some entries ∧
    entries.map SchemaCompiler.declaredName = names.map some ∧
    SchemaCompiler.declaredExtra x w fieldOptions = some extra

theorem declaresStruct_of_compiled {x : Externals} {schemaAst : RubyValue}
    {opts : Option (List (RubyValue × RubyValue))} {compiled : CompiledSchema}
    (hcompile : Wrapper.compile x schemaAst opts = .ok compiled) {id : NodeId}
    {fields : List StructField} {extra : ExtraBehavior}
    (hget : compiled.ir.arena.get id = some (.struct fields extra)) :
    DeclaresStruct x schemaAst (fields.map (·.name)) extra := by
  obtain ⟨symbolized, -, h⟩ := Fallible.bind_eq_ok.1 hcompile
  obtain ⟨compiled', options, hcompiled, -, rfl⟩ := compile_ok h
  obtain ⟨source, value, document, hsource, hvalue, hdocument, hir, -⟩ :=
    SchemaCompiler.compile_ok hcompiled
  have hnode : .struct fields extra ∈ (buildIr document).arena.nodes :=
    hir ▸ List.mem_of_getElem? hget
  obtain ⟨w, fieldOptions, entries, hreads, hdeclared⟩ :=
    SchemaCompiler.struct_declared hdocument hnode
  exact ⟨source, value, w, fieldOptions, entries, hsource, hvalue, hreads, hdeclared⟩

/-- For every schema that the wrapper compiles with options that do not mention `extra`, every
struct in it and every map: at the root of the input unknown entries are reported, whatever the
struct declares; below the root they are treated as it declares. -/
theorem extra_policies {x : Externals} {schemaAst : RubyValue}
    {opts : Option (List (RubyValue × RubyValue))} {compiled : CompiledSchema}
    (hcompile : Wrapper.compile x schemaAst opts = .ok compiled)
    (hextra : ¬ Wrapper.Mentions opts "extra") {id : NodeId} {fields : List StructField}
    {extra : ExtraBehavior} (hget : compiled.ir.arena.get id = some (.struct fields extra))
    (map : OwnedDict) (path : List PathSegment) (issues : List ValidationIssue) :
    DeclaresStruct x schemaAst (fields.map (·.name)) extra ∧ ∃ structure_,
      (Validator.validateNode compiled.options compiled.ir id (.dict map)).run ⟨path, issues⟩ =
        some (some (.struct structure_), ⟨path, issues ++ Report.rendered issueAt path
          (check compiled.options (compiled.ir.unfold id) path.isEmpty (.dict map)).findings⟩) ∧
      (if path = [] then ExtraBehavior.forbid else extra).Treats
        (unknownEntries (fields.map (·.name)) map) structure_.extras
        (check compiled.options (compiled.ir.unfold id) path.isEmpty (.dict map)).findings := by
  obtain ⟨structure_, hrun, htreats⟩ := run_struct hget compiled.options map path issues
  rw [effectivePolicy, Wrapper.compile_forbid hcompile hextra] at htreats
  exact ⟨declaresStruct_of_compiled hcompile hget, structure_, hrun, htreats⟩

/-! ## A struct that allows extras -/

def openSource : String := "\x7b\"extra\":\"allow\",\"fields\":[],\"type\":\"struct\"\x7d"

def openExternals : Externals :=
  .reading openSource
    (.object [("extra", .string "allow"), ("fields", .array []), ("type", .string "struct")])

def openSchema : CompiledSchema where
  summary := openSource
  ir := buildIr (.struct [] .allow)
  plan := ⟨[]⟩
  options := {}

theorem openSchema_compiles :
    Wrapper.compile openExternals (.utf8Str openSource) none = .ok openSchema := by
  have hparsed : SchemaDocument.fromValue openExternals
      (.object [("extra", .string "allow"), ("fields", .array []), ("type", .string "struct")]) =
      .ok (.struct [] .allow) := by
    have hstruct : SchemaCompiler.parseStructType openExternals none
        [("extra", .string "allow"), ("fields", .array [])] "$" = .ok (.struct [] .allow) := by
      rw [SchemaCompiler.parseStructType.eq_def]
      change (SchemaCompiler.parseFieldsArray openExternals (.array []) "$" >>= fun fields =>
        pure (TypeExpr.struct fields .allow)) = _
      rw [SchemaCompiler.parseFieldsArray, SchemaCompiler.parseFieldEntries]
      rfl
    rw [SchemaDocument.fromValue, SchemaCompiler.parseTypeExpr]
    change SchemaCompiler.parseNamedType openExternals "struct" _ _ _ = _
    have hlower : openExternals.toLowercase "struct" = "struct" := by decide
    rw [SchemaCompiler.parseNamedType.eq_def, hlower]
    exact hstruct
  change RustlyCore.compile openExternals (.utf8Str openSource)
    (.hash ⟨"Hash", false⟩ Wrapper.defaultOptions) = _
  exact compile_text Wrapper.parseOptions_default (by decide) rfl hparsed rfl rfl

theorem mem_unknownEntries_open : ("a", .null) ∈ unknownEntries [] [("a", OwnedValue.null)] :=
  List.mem_cons_self

theorem openSchema_root : openSchema.ir.arena.get openSchema.ir.root = some (.struct [] .allow) :=
  rfl

/-- The root declares `allow`, and its unknown entry is reported. -/
theorem extra_policies_root :
    Wrapper.compile openExternals (.utf8Str openSource) none = .ok openSchema ∧
      ¬ Wrapper.Mentions none "extra" ∧
      ∃ structure_,
        (Validator.validateNode openSchema.options openSchema.ir openSchema.ir.root
          (.dict [("a", .null)])).run ⟨[], []⟩ = some (some (.struct structure_),
            ⟨[], [] ++ Report.rendered issueAt [] (check openSchema.options
              (openSchema.ir.unfold openSchema.ir.root) true (.dict [("a", .null)])).findings⟩) ∧
        ¬ ExtraBehavior.allow.Treats (unknownEntries [] [("a", .null)]) structure_.extras
          (check openSchema.options (openSchema.ir.unfold openSchema.ir.root) true
            (.dict [("a", .null)])).findings := by
  have hnone : ¬ Wrapper.Mentions none "extra" := by
    rintro ⟨_, hp, _⟩
    cases hp
  refine ⟨openSchema_compiles, hnone, ?_⟩
  obtain ⟨structure_, hrun, htreats⟩ :=
    run_struct openSchema_root openSchema.options [("a", .null)] [] []
  refine ⟨structure_, hrun, fun hallow => ?_⟩
  have hreported := (htreats.reported _ mem_unknownEntries_open).2 rfl
  cases (hallow.reported _ mem_unknownEntries_open).1 hreported

/-- Reported at the root, kept under a key. -/
theorem extra_policies_open :
    ([.key "a"], extraKey "a") ∈ (check openSchema.options
        (openSchema.ir.unfold openSchema.ir.root) true (.dict [("a", .null)])).findings ∧
      ∃ structure_ kept issues,
        (Validator.validateNode openSchema.options openSchema.ir openSchema.ir.root
          (.dict [("a", .null)])).run ⟨[.key "b"], []⟩ =
            some (some (.struct structure_), ⟨[.key "b"], issues⟩) ∧
        structure_.extras = some kept ∧ ("a", .null) ∈ kept := by
  have hnone : ¬ Wrapper.Mentions none "extra" := by
    rintro ⟨_, hp, _⟩
    cases hp
  obtain ⟨-, _, -, hroot⟩ := extra_policies openSchema_compiles hnone openSchema_root
    [("a", .null)] [] []
  obtain ⟨-, structure_, hrun, hbelow⟩ := extra_policies openSchema_compiles hnone openSchema_root
    [("a", .null)] [.key "b"] []
  obtain ⟨kept, hkept, hmem⟩ := (hbelow.kept _ mem_unknownEntries_open).2 rfl
  exact ⟨(hroot.reported _ mem_unknownEntries_open).2 rfl, structure_, kept, _, hrun, hkept, hmem⟩

end RustlyCore
