import RustlyCore.Core

/-!
# Where compiling panics

The summary of a schema is cut after 200 bytes, and the names of a plan become C strings. Both trust
the document: that a character ends at that offset, and that no name has a zero byte.
-/

namespace RustlyCore

variable {x : Externals} {ε : Type}

/-! ## The summary -/

/-- A serialisation of up to 200 bytes as it is, a longer one as its first 200 bytes and an
ellipsis. -/
structure Abbreviates (serialised summary : String) : Prop where
  short : serialised.utf8ByteSize ≤ 200 → summary = serialised
  long : 200 < serialised.utf8ByteSize →
    ∃ cut rest, serialised = cut ++ rest ∧ cut.utf8ByteSize = 200 ∧ summary = cut.push '…'

def JsonValue.IsCollection : JsonValue → Prop
  | .array _ | .object _ => True
  | _ => False

theorem summaryFromValue_collection {value : JsonValue} (h : value.IsCollection) :
    summaryFromValue x value =
      (if (x.display value).utf8ByteSize > 200 then
        match String.fromUTF8? ((x.display value).toUTF8.extract 0 200) with
        | some cut => .ok (cut.push '…')
        | none => .panic
      else .ok (x.display value) : Result ε String) := by
  cases value with
  | array | object => rfl
  | _ => cases h

theorem summaryFromValue_scalar {value : JsonValue} (h : ¬ value.IsCollection) :
    summaryFromValue x value = (.ok (x.display value) : Result ε String) := by
  cases value with
  | array | object => exact absurd trivial h
  | _ => rfl

/-- A serialisation whose first 200 bytes end within a character. -/
theorem summaryFromValue_panics {value : JsonValue} (h : value.IsCollection)
    (hlong : 200 < (x.display value).utf8ByteSize)
    (hboundary : Text.isCharBoundary (x.display value) 200 = false) :
    summaryFromValue x value = (.panic : Result ε String) := by
  rw [summaryFromValue_collection h, if_pos hlong]
  cases hcut : String.fromUTF8? ((x.display value).toUTF8.extract 0 200) with
  | none => rfl
  | some cut =>
    obtain ⟨rest, hrest⟩ := (Text.fromUTF8?_extract (Nat.le_of_lt hlong)).1 hcut
    exact absurd (Text.isCharBoundary_iff.2 ⟨cut, rest, hrest⟩) (by simp [hboundary])

theorem Abbreviates.of_short {serialised : String} (h : serialised.utf8ByteSize ≤ 200) :
    Abbreviates serialised serialised where
  short _ := rfl
  long hlong := absurd h (Nat.not_le.2 hlong)

/-- For every JSON value, with any serializer that ends scalars in ASCII: the summary is there and
abbreviates the serialisation exactly if this is short, or is that of a collection and has a
character that begins after 200 bytes. -/
theorem summaryFromValue_abbreviates_iff (value : JsonValue)
    (hscalar : ¬ value.IsCollection → ∀ c ∈ (x.display value).toList.getLast?, c.toNat < 0x80) :
    (∃ summary, summaryFromValue x value = (.ok summary : Result ε String) ∧
        Abbreviates (x.display value) summary) ↔
      (x.display value).utf8ByteSize ≤ 200 ∨
        value.IsCollection ∧ Text.isCharBoundary (x.display value) 200 = true := by
  by_cases hshort : (x.display value).utf8ByteSize ≤ 200
  · have hsummary : summaryFromValue x value = (.ok (x.display value) : Result ε String) := by
      by_cases hcollection : value.IsCollection
      · rw [summaryFromValue_collection hcollection, if_neg (Nat.not_lt.2 hshort)]
      · exact summaryFromValue_scalar hcollection
    exact iff_of_true ⟨_, hsummary, .of_short hshort⟩ (.inl hshort)
  rw [or_iff_right hshort]
  have hlong : 200 < (x.display value).utf8ByteSize := Nat.not_le.1 hshort
  by_cases hcollection : value.IsCollection
  · rw [summaryFromValue_collection hcollection, if_pos hlong, and_iff_right hcollection,
      Text.isCharBoundary_iff]
    constructor
    · rintro ⟨summary, -, habbreviates⟩
      obtain ⟨cut, rest, hserialised, hcut, -⟩ := habbreviates.long hlong
      exact ⟨cut, rest, hserialised, hcut⟩
    · rintro ⟨cut, rest, hserialised, hcut⟩
      rw [(Text.fromUTF8?_extract (Nat.le_of_lt hlong)).2 ⟨rest, hserialised, hcut⟩]
      refine ⟨_, rfl, ?_, ?_⟩
      · exact fun h => absurd h hshort
      · exact fun _ => ⟨cut, rest, hserialised, hcut, rfl⟩
  · apply iff_of_false
    · rw [summaryFromValue_scalar hcollection]
      rintro ⟨summary, hsummary, habbreviates⟩
      cases hsummary
      obtain ⟨cut, rest, -, -, hcut⟩ := habbreviates.long hlong
      have hlast := hscalar hcollection '…'
      rw [hcut] at hlast
      exact absurd (hlast (by simp)) (by decide)
    · exact fun h => hcollection h.1

/-! ### A long enum -/

/-- An `a` and a hundred characters of two bytes. -/
def longVariant : String := .ofList ('a' :: List.replicate 100 'é')

def longSource : String := "[\"enum\",[\"" ++ longVariant ++ "\"]]"

def longEnum : JsonValue := .array [.string "enum", .array [.string longVariant]]

def longExternals : Externals := .reading longSource longEnum

theorem longEnum_parsed : SchemaDocument.fromValue longExternals longEnum =
    .ok (.enum [longVariant]) := by
  rw [SchemaDocument.fromValue, longEnum, SchemaCompiler.parseTypeExpr,
    SchemaCompiler.parseArrayType.eq_def]
  rfl

theorem longEnum_panics :
    summaryFromValue longExternals longEnum = (.panic : Result CompileError String) := by
  apply summaryFromValue_panics
  · trivial
  · change 200 < longSource.utf8ByteSize
    decide +kernel
  · change Text.isCharBoundary longSource 200 = false
    decide +kernel

/-- Compiling the enum panics. -/
theorem summary_not_total :
    compile longExternals (.utf8Str longSource) .nil = .panic ∧
      ¬ ∃ summary, summaryFromValue longExternals longEnum =
          (.ok summary : Result CompileError String) ∧
        Abbreviates (longExternals.display longEnum) summary := by
  refine ⟨?_, ?_⟩
  · have hnul : Text.containsNul longSource = false := by decide +kernel
    apply compile_text_panics (x := longExternals) rfl hnul (Externals.reading_self _ _)
      longEnum_parsed
    rw [longEnum_panics]
    rfl
  · intro h
    obtain ⟨summary, hsummary, -⟩ := h
    rw [longEnum_panics] at hsummary
    cases hsummary

/-- A short schema is its own summary. -/
theorem summaryFromValue_abbreviates_int :
    ∃ summary, summaryFromValue (.reading "\"int\"" (.string "int")) (.string "int") =
        (.ok summary : Result CompileError String) ∧
      Abbreviates "\"int\"" summary := by
  apply (summaryFromValue_abbreviates_iff _ _).2
  · exact .inl (by decide)
  · intro _ c hc
    cases hc
    decide

/-! ## The plan -/

/-- The C strings of a field name are there, and Ruby interns them. -/
structure Plannable (x : Externals) (name : String) : Prop where
  nulFree : Text.containsNul name = false
  symbol : x.interns name = true
  ivar : x.interns ("@" ++ name) = true

theorem containsNul_ivar (name : String) :
    Text.containsNul ("@" ++ name) = Text.containsNul name := by
  have hbytes : ("@" ++ name).toUTF8.data.toList = 0x40 :: name.toUTF8.data.toList := by
    rw [Text.toUTF8_data_toList, Text.toUTF8_data_toList, String.toList_append]
    rfl
  rw [Text.containsNul, Text.hasNul, hbytes, List.contains_cons]
  rfl

theorem cString_nulFree {s : String} (h : Text.containsNul s = false) :
    cString s = (.ok s : Result ε String) := by
  rw [cString, h]
  rfl

theorem materializeEntry_eq {name : String} (h : Text.containsNul name = false) :
    materializeEntry x name = (do
      let symbolId ← intern x name
      let ivarId ← intern x ("@" ++ name)
      return ⟨name, ivarId, symbolId⟩ : Result ε MaterializeEntry) := by
  rw [materializeEntry, cString_nulFree h, Fallible.ok_bind,
    cString_nulFree (containsNul_ivar name ▸ h)]
  rfl

theorem materializeEntry_nul {name : String} (h : Text.containsNul name = true) :
    materializeEntry x name = (.panic : Result ε MaterializeEntry) := by
  rw [materializeEntry, cString, h]
  rfl

theorem materializeEntry_returns {name : String} :
    Fallible.Returns (materializeEntry x name : Result ε MaterializeEntry) ↔ Plannable x name := by
  cases hnul : Text.containsNul name with
  | true =>
    rw [materializeEntry_nul hnul]
    exact iff_of_false (Fallible.not_returns_error _) fun h => by cases hnul.symm.trans h.nulFree
  | false =>
    rw [materializeEntry_eq hnul]
    cases hsymbol : x.interns name with
    | false =>
      refine iff_of_false ?_ fun h => by cases hsymbol.symm.trans h.symbol
      simp [intern, hsymbol, Fallible.raise]
    | true =>
      cases hivar : x.interns ("@" ++ name) with
      | false =>
        refine iff_of_false ?_ fun h => by cases hivar.symm.trans h.ivar
        simp [intern, hsymbol, hivar, Fallible.raise]
      | true =>
        refine iff_of_true ?_ ⟨hnul, hsymbol, hivar⟩
        simp [intern, hsymbol, hivar]

/-- What refuses to intern a name raises. -/
theorem intern_ne_panic (name : String) : intern x name ≠ (.panic : Result ε String) := by
  intro h
  rw [intern] at h
  split at h <;> cases h

theorem materializeEntry_panics {name : String} :
    materializeEntry x name = (.panic : Result ε MaterializeEntry) ↔
      Text.containsNul name = true := by
  refine ⟨fun h => ?_, materializeEntry_nul⟩
  by_contra hnul
  rw [materializeEntry_eq (Bool.eq_false_iff.2 hnul)] at h
  obtain h | ⟨_, -, h⟩ := Fallible.bind_eq_error.1 h
  · exact intern_ne_panic _ h
  · obtain h | ⟨_, -, h⟩ := Fallible.bind_eq_error.1 h
    · exact intern_ne_panic _ h
    · cases h

theorem materializeEntries_returns {fields : List StructField} :
    Fallible.Returns (materializeEntries x fields : Result ε (List MaterializeEntry)) ↔
      ∀ name ∈ fields.map (·.name), Plannable x name := by
  induction fields with
  | nil => simp [materializeEntries]
  | cons field fields ih =>
    rw [materializeEntries, List.map_cons, List.forall_mem_cons, Fallible.returns_bind,
      materializeEntry_returns, ← ih]
    exact fun _ _ => Fallible.returns_bind_pure

/-- The first name that has no C string must come before the first that is not interned. -/
theorem materializeEntries_panics {fields : List StructField} :
    materializeEntries x fields = (.panic : Result ε (List MaterializeEntry)) ↔
      ∃ before name after, fields.map (·.name) = before ++ name :: after ∧
        (∀ n ∈ before, Plannable x n) ∧ Text.containsNul name = true := by
  induction fields with
  | nil =>
    refine iff_of_false (fun h => by cases h) ?_
    intro ⟨before, name, after, h, _⟩
    exact List.append_ne_nil_of_right_ne_nil before (List.cons_ne_nil name after) h.symm
  | cons field fields ih =>
    rw [List.map_cons]
    refine ⟨fun h => ?_, ?_⟩
    · obtain h | ⟨entry, hentry, h⟩ := Fallible.bind_eq_error.1 h
      · exact ⟨[], field.name, _, rfl, List.forall_mem_nil _, materializeEntry_panics.1 h⟩
      · obtain ⟨before, name, after, hnames, hbefore, hname⟩ :=
          ih.1 (Fallible.bind_pure_eq_error.1 h)
        have hfirst : Plannable x field.name := materializeEntry_returns.1 ⟨entry, hentry⟩
        exact ⟨field.name :: before, name, after, by rw [hnames]; rfl,
          List.forall_mem_cons.2 ⟨hfirst, hbefore⟩, hname⟩
    · intro ⟨before, name, after, hnames, hbefore, hname⟩
      apply Fallible.bind_eq_error.2
      cases before with
      | nil =>
        cases hnames
        exact .inl (materializeEntry_panics.2 hname)
      | cons n before =>
        injection hnames with hn hnames
        obtain ⟨hfirst, hbefore⟩ := List.forall_mem_cons.1 hbefore
        obtain ⟨entry, hentry⟩ := (materializeEntry_returns (ε := ε)).2 (hn ▸ hfirst)
        refine .inr ⟨entry, hentry, Fallible.bind_pure_eq_error.2 ?_⟩
        exact ih.2 ⟨before, name, after, hnames, hbefore, hname⟩

theorem root_node (ir : SchemaIr) : ∃ node, ir.arena.get ir.root = some node :=
  ⟨_, List.getElem?_eq_getElem ir.root_lt⟩

/-- The plan of a root that is a struct itself is that of its fields. -/
theorem buildMaterializePlan_cases (ir : SchemaIr) :
    (∃ fields, (ir.unfold ir.root).plannedNames = fields.map StructField.name ∧
      buildMaterializePlan x ir =
        (do return ⟨← materializeEntries x fields⟩ : Result ε MaterializePlan)) ∨
    ((ir.unfold ir.root).plannedNames = [] ∧
      buildMaterializePlan x ir = (.ok ⟨[]⟩ : Result ε MaterializePlan)) := by
  obtain ⟨node, hget⟩ := root_node ir
  rw [buildMaterializePlan, hget, SchemaIr.unfold_of_get hget]
  cases node with
  | struct fields extra =>
    refine .inl ⟨fields, ?_, rfl⟩
    simp [Node.expand, TypeExpr.plannedNames]
  | _ => exact .inr ⟨rfl, rfl⟩

/-- For every schema: there is a plan exactly if no field name of a struct at the root has a zero
byte and Ruby interns them. It panics exactly if a zero byte comes before what Ruby refuses. -/
theorem buildMaterializePlan_returns_iff (x : Externals) (ir : SchemaIr) :
    ((∃ plan, buildMaterializePlan x ir = (.ok plan : Result CompileError MaterializePlan)) ↔
      ∀ name ∈ (ir.unfold ir.root).plannedNames, Plannable x name) ∧
    (buildMaterializePlan x ir = (.panic : Result CompileError MaterializePlan) ↔
      ∃ before name after, (ir.unfold ir.root).plannedNames = before ++ name :: after ∧
        (∀ n ∈ before, Plannable x n) ∧ Text.containsNul name = true) := by
  obtain ⟨fields, hnames, hplan⟩ | ⟨hnames, hplan⟩ := buildMaterializePlan_cases (x := x) ir
  · rw [hnames, hplan]
    exact ⟨Fallible.returns_bind_pure.trans materializeEntries_returns,
      Fallible.bind_pure_eq_error.trans materializeEntries_panics⟩
  · rw [hnames, hplan]
    refine ⟨iff_of_true ⟨_, rfl⟩ (List.forall_mem_nil _), ?_⟩
    refine iff_of_false (fun h => by cases h) ?_
    intro ⟨before, name, after, h, _⟩
    exact List.append_ne_nil_of_right_ne_nil before (List.cons_ne_nil name after) h.symm

/-! ### A name with a zero byte -/

/-- The source writes the zero byte as an escape. -/
def nulSource : String :=
  "\x7b\"fields\":[[\"required\",\"a\\u0000\",\"bool\"]],\"type\":\"struct\"\x7d"

def nulFields : JsonValue := .array [.array [.string "required", .string "a\x00", .string "bool"]]

def nulJson : JsonValue := .object [("fields", nulFields), ("type", .string "struct")]

def nulExternals : Externals := .reading nulSource nulJson

theorem nulFields_parsed (hbool : x.toLowercase "bool" = "bool") (path : String) :
    SchemaCompiler.parseFieldsArray x nulFields path =
      .ok [⟨"a\x00", .required, .primitive .bool⟩] := by
  simp [nulFields, SchemaCompiler.parseFieldsArray, SchemaCompiler.parseFieldEntries,
    SchemaCompiler.parseFieldEntry, SchemaCompiler.parsePresence, SchemaCompiler.parseTypeExpr,
    SchemaCompiler.parseNamedType, SchemaCompiler.inlineObject, JsonValue.asStr, hbool]
  rfl

def nulDocument : TypeExpr := .struct [⟨"a\x00", .required, .primitive .bool⟩] .forbid

theorem nulJson_parsed : SchemaDocument.fromValue nulExternals nulJson = .ok nulDocument :=
  parseTypeExpr_struct (by decide) (nulFields_parsed (by decide) _)

/-- Compiling the struct panics. -/
theorem plan_not_total :
    SchemaDocument.fromValue nulExternals nulJson = .ok nulDocument ∧
      compile nulExternals (.utf8Str nulSource) .nil = .panic ∧
      ¬ ∃ plan, buildMaterializePlan nulExternals (buildIr nulDocument) =
        (.ok plan : Result CompileError MaterializePlan) := by
  have hplan : buildMaterializePlan nulExternals (buildIr nulDocument) =
      (.panic : Result CompileError MaterializePlan) := rfl
  refine ⟨nulJson_parsed, ?_, ?_⟩
  · have hnul : Text.containsNul nulSource = false := by decide
    have hsummary : summaryFromValue nulExternals nulJson =
        (.ok nulSource : Result CompileError String) := rfl
    apply compile_text_panics (x := nulExternals) rfl hnul (Externals.reading_self _ _)
      nulJson_parsed
    rw [hsummary, Fallible.ok_bind, hplan]
    rfl
  · rw [hplan]
    intro h
    obtain ⟨plan, h⟩ := h
    cases h

end RustlyCore
