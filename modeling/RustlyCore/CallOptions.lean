import RustlyCore.Build

/-!
# Options of a validation

A call of `validate` may bring options of its own. They take the place of all that the schema was
compiled with: what they leave out has its default, not its compiled value.
-/

namespace RustlyCore

/-! ## What options say -/

/-- An option that is absent or nil has its default. -/
def Said {α : Type} (found : Option RubyValue) (reads : RubyValue → α → Prop) (default a : α) :
    Prop :=
  match found with
  | none | some .nil => a = default
  | some value => reads value a

def Given {α : Type} (opts : RubyValue) (name : String) (reads : RubyValue → α → Prop)
    (base a : α) : Prop :=
  Said (opts.hashLookup (.id2sym name)) reads base a

def ReadsFlag (value : RubyValue) (b : Bool) : Prop := value = .bool b

/-- A Symbol of the table. -/
def ReadsSymbol {α : Type} (table : List (String × α)) (value : RubyValue) (a : α) : Prop :=
  ∃ name, (name, a) ∈ table ∧ value = .id2sym name

def inputModes : List (String × InputMode) := [("auto", .auto), ("json", .json), ("ruby", .ruby)]

def extraPolicies : List (String × ExtraBehavior) :=
  [("forbid", .forbid), ("ignore", .ignore), ("allow", .allow)]

def freezeModes : List (String × FreezeMode) :=
  [("deep", .deep), ("shallow", .shallow), ("none", .none)]

/-- The options that a validation reads, as `opts` gives them over a base. -/
structure Overrides (base : ValidationOptions) (opts : RubyValue) (o : ValidationOptions) :
    Prop where
  strict : Given opts "strict" ReadsFlag base.strict o.strict
  inputMode : Given opts "input_mode" (ReadsSymbol inputModes) base.inputMode o.inputMode
  extraBehavior :
    Given opts "extra" (ReadsSymbol extraPolicies) base.extraBehavior o.extraBehavior

/-! ## Symbols -/

/-- The table holds what the function maps, under names that a Symbol can have. -/
structure Tabulates {α : Type} (map : String → Except String α) (table : List (String × α)) :
    Prop where
  mem_iff : ∀ name a, map name = .ok a ↔ (name, a) ∈ table
  plain : ∀ p ∈ table, Text.containsNul p.1 = false ∧ '\uFFFD' ∉ p.1.toList

theorem mapInputMode_tabulates : Tabulates mapInputMode inputModes where
  mem_iff name a := by
    unfold mapInputMode
    split <;> simp_all [inputModes, eq_comm]
  plain := by decide

theorem mapExtraBehavior_tabulates : Tabulates mapExtraBehavior extraPolicies where
  mem_iff name a := by
    unfold mapExtraBehavior
    split <;> simp_all [extraPolicies, eq_comm]
  plain := by decide

theorem mapFreezeMode_tabulates : Tabulates mapFreezeMode freezeModes where
  mem_iff name a := by
    unfold mapFreezeMode
    split <;> simp_all [freezeModes, eq_comm]
  plain := by decide

section
variable {α : Type} {map : String → Except String α} {table : List (String × α)}
  {value : RubyValue} {a : α}

theorem readsSymbol_iff {ε : Type} (h : Tabulates map table) :
    ReadsSymbol table value a ↔
      ∃ symbol, (symbolToOwned value : Result ε (Option String)) = .ok (some symbol) ∧
        map symbol = .ok a := by
  constructor
  · rintro ⟨name, hmem, hvalue⟩
    obtain ⟨hnul, hplain⟩ := h.plain _ hmem
    exact ⟨name, (symbolToOwned_plain hnul hplain).2 hvalue, (h.mem_iff name a).2 hmem⟩
  · rintro ⟨name, hsymbol, hmap⟩
    have hmem := (h.mem_iff name a).1 hmap
    obtain ⟨hnul, hplain⟩ := h.plain _ hmem
    exact ⟨name, hmem, (symbolToOwned_plain hnul hplain).1 hsymbol⟩

end

/-! ## Parsing -/

section
variable {α : Type} {opts : RubyValue} {name : String} {reads : RubyValue → α → Prop}
  {base a a' : α} {map : String → Except String α} {table : List (String × α)}

theorem given_iff : Given opts name reads base a ↔
    match optionValue opts name with
    | none => a = base
    | some value => reads value a := by
  unfold Given Said optionValue
  cases opts.hashLookup (.id2sym name) with
  | none => rfl
  | some value => cases value <;> rfl

theorem Given.unique (hreads : ∀ value a a', reads value a → reads value a' → a = a')
    (h : Given opts name reads base a) (h' : Given opts name reads base a') : a = a' := by
  rw [given_iff] at h h'
  cases hvalue : optionValue opts name with
  | none =>
    rw [hvalue] at h h'
    exact h.trans h'.symm
  | some value =>
    rw [hvalue] at h h'
    exact hreads value a a' h h'

theorem ReadsFlag.unique (value : RubyValue) (b b' : Bool) (h : ReadsFlag value b)
    (h' : ReadsFlag value b') : b = b' := by
  cases h.symm.trans h'
  rfl

theorem Tabulates.unique (h : Tabulates map table) (value : RubyValue) (a a' : α)
    (ha : ReadsSymbol table value a) (ha' : ReadsSymbol table value a') : a = a' := by
  obtain ⟨symbol, hsymbol, ha⟩ := (readsSymbol_iff (ε := String) h).1 ha
  obtain ⟨symbol', hsymbol', ha'⟩ := (readsSymbol_iff (ε := String) h).1 ha'
  cases hsymbol.symm.trans hsymbol'
  cases ha.symm.trans ha'
  rfl

theorem parseFlag_eq_ok {base b : Bool} :
    parseFlag opts name base = .ok b ↔ Given opts name ReadsFlag base b := by
  rw [given_iff, parseFlag]
  cases optionValue opts name with
  | none => exact ⟨fun h => (Except.ok.inj h).symm, fun h => congrArg _ h.symm⟩
  | some value =>
    cases value with
    | bool b' =>
      constructor
      · intro h
        cases h
        rfl
      · intro h
        cases h
        rfl
    | _ => exact iff_of_false (fun h => by cases h) (fun h => by cases h)

theorem parseSymbol_eq_ok (htable : Tabulates map table) :
    parseSymbol opts name base map = .ok a ↔ Given opts name (ReadsSymbol table) base a := by
  rw [given_iff, parseSymbol]
  cases optionValue opts name with
  | none => exact ⟨fun h => (Except.ok.inj h).symm, fun h => congrArg _ h.symm⟩
  | some value =>
    simp only [readsSymbol_iff (ε := String) htable]
    constructor
    · intro h
      obtain ⟨symbol, hsymbol, h⟩ := Fallible.bind_eq_ok.1 h
      cases symbol with
      | none => cases h
      | some symbol =>
        refine ⟨symbol, hsymbol, ?_⟩
        cases hmap : map symbol with
        | error message =>
          simp only [hmap] at h
          cases h
        | ok a' =>
          simp only [hmap] at h
          cases h
          rfl
    · rintro ⟨symbol, hsymbol, ha⟩
      simp only [hsymbol, Fallible.ok_bind, ha]
      rfl

end

variable {x : Externals} {compiled : CompiledSchema} {opts : RubyValue}
  {base parsed o o' : ValidationOptions}

/-- Parsed options give what they leave out its default. -/
theorem parseOptions_overrides (h : parseOptions opts = .ok parsed) : Overrides {} opts parsed := by
  cases opts with
  | nil =>
    cases h
    exact ⟨rfl, rfl, rfl⟩
  | hash basic entries =>
    obtain ⟨strict, hstrict, h⟩ := Fallible.bind_eq_ok.1 h
    obtain ⟨inputMode, hmode, h⟩ := Fallible.bind_eq_ok.1 h
    obtain ⟨extraBehavior, hextra, h⟩ := Fallible.bind_eq_ok.1 h
    obtain ⟨freeze, -, h⟩ := Fallible.bind_eq_ok.1 h
    obtain ⟨storeAttributes, -, h⟩ := Fallible.bind_eq_ok.1 h
    cases h
    exact ⟨parseFlag_eq_ok.1 hstrict, (parseSymbol_eq_ok mapInputMode_tabulates).1 hmode,
      (parseSymbol_eq_ok mapExtraBehavior_tabulates).1 hextra⟩
  | _ => cases h

/-- A validation reads three of the options. -/
structure SameValidation (o o' : ValidationOptions) : Prop where
  strict : o.strict = o'.strict
  inputMode : o.inputMode = o'.inputMode
  extraBehavior : o.extraBehavior = o'.extraBehavior

theorem Overrides.unique (h : Overrides base opts o) (h' : Overrides base opts o') :
    SameValidation o o' where
  strict := h.strict.unique ReadsFlag.unique h'.strict
  inputMode := h.inputMode.unique mapInputMode_tabulates.unique h'.inputMode
  extraBehavior :=
    h.extraBehavior.unique mapExtraBehavior_tabulates.unique h'.extraBehavior

theorem validatePreparedInput_congr (h : SameValidation o o') (schema : SchemaIr)
    (input : PreparedInput) :
    validatePreparedInput x schema input o = validatePreparedInput x schema input o' := by
  have howned (v : OwnedValue) : validateOwned schema v o = validateOwned schema v o' := by
    rw [validateOwned_eq, validateOwned_eq, check_congr h.strict h.extraBehavior]
  cases input with
  | owned v => exact howned v
  | json source =>
    simp only [validatePreparedInput, validateJson]
    cases (x.fromStr source).toOption with
    | none => rfl
    | some json => exact howned _

theorem validate_congr (h : SameValidation o o') (input : RubyValue) :
    validate x { compiled with options := o } input .nil =
      validate x { compiled with options := o' } input .nil := by
  have hcall (o : ValidationOptions) :
      callOptions { compiled with options := o } .nil = .ok o := rfl
  rw [validate, validate, hcall, hcall, Fallible.ok_bind, Fallible.ok_bind, h.inputMode]
  simp only [validateNoGvl, validatePreparedInput_congr h]

/-- Options of its own take the place of the compiled ones. -/
theorem validate_parsed (hopts : opts ≠ .nil) (hparsed : parseOptions opts = .ok parsed)
    (input : RubyValue) :
    validate x compiled input opts = validate x { compiled with options := parsed } input .nil := by
  have hcall : callOptions compiled opts = .ok parsed := by
    cases opts with
    | nil => exact absurd rfl hopts
    | _ =>
      rw [callOptions, hparsed]
      · rfl
      · exact hopts
  rw [validate, hcall]
  rfl

/-- For every schema, whatever it was compiled with, all options that parse and every input: a
validation under `opts` is one under the options that give what `opts` leaves out its default. -/
theorem validate_replaces_options (x : Externals) (compiled : CompiledSchema)
    (hopts : opts ≠ .nil) (hparsed : parseOptions opts = .ok parsed) :
    (∃ o, Overrides {} opts o) ∧ ∀ o, Overrides {} opts o → ∀ input,
      validate x compiled input opts = validate x { compiled with options := o } input .nil := by
  have hoverrides := parseOptions_overrides hparsed
  refine ⟨⟨parsed, hoverrides⟩, fun o ho input => ?_⟩
  rw [validate_parsed hopts hparsed]
  exact validate_congr (hoverrides.unique ho) input

/-! ## A strict schema -/

def strictOption : RubyValue := .hash ⟨"Hash", false⟩ [(.id2sym "strict", .bool true)]

def noOptions : RubyValue := .hash ⟨"Hash", false⟩ []

def strictTag : CompiledSchema := { tagSchema with options := { strict := true } }

theorem strictTag_compiles :
    compile tagExternals (.utf8Str tagSource) strictOption = .ok strictTag :=
  compile_text rfl (by decide) rfl
    (parseTypeExpr_struct (by decide) (tagFields_parsed (by decide) _)) rfl rfl

/-- A String is no Symbol to a strict schema. -/
theorem strictTag_rejects (s : String) :
    validate tagExternals strictTag (tagInput s) .nil ≠ .ok .valid := by
  intro h
  obtain ⟨w, prepared, hprepared, hvalid⟩ := validate_valid_iff.1 h
  cases hprepared.symm.trans (prepareInput_tag s)
  obtain ⟨v, hv, haccepts⟩ := validatePreparedInput_accepts_iff.1 hvalid
  cases hv
  have hconv := (buildIr_accepts_iff (by decide)).1 haccepts
  obtain ⟨map, values, extras, hmap, -, hfields, -⟩ := hconv
  cases hmap
  cases values with
  | nil => exact hfields
  | cons value values =>
    obtain ⟨v, w, hfirst, -, hsymbol⟩ | ⟨hnone, -, -⟩ := hfields.1
    · cases hfirst.dictFind
      obtain ⟨_, hsymbol, -⟩ := hsymbol
      cases hsymbol with
      | string hstrict => cases hstrict
    · exact hnone _ List.mem_cons_self rfl

/-- An empty Hash takes strictness away. -/
theorem validate_not_merges :
    compile tagExternals (.utf8Str tagSource) strictOption = .ok strictTag ∧
      Overrides strictTag.options noOptions strictTag.options ∧
      validate tagExternals strictTag (tagInput "ab") noOptions ≠
        validate tagExternals strictTag (tagInput "ab") .nil := by
  refine ⟨strictTag_compiles, ⟨rfl, rfl, rfl⟩, ?_⟩
  intro h
  have hparsed : parseOptions noOptions = .ok {} := rfl
  rw [validate_parsed (by intro h; cases h) hparsed] at h
  apply strictTag_rejects "ab"
  rw [← h]
  exact validate_valid_iff.2 ⟨_, tag_validates _⟩

/-- Strictness for one call. -/
theorem validate_replaces_options_strict :
    (∃ o, Overrides {} strictOption o) ∧ ∀ o, Overrides {} strictOption o → ∀ input,
      validate tagExternals tagSchema input strictOption =
        validate tagExternals { tagSchema with options := o } input .nil := by
  apply validate_replaces_options
  · intro h
    cases h
  · rfl

end RustlyCore
