import RustlyCore.Schema.Reading

/-!
# Where the parser finds an error

The path is handed down for errors only. An error names the path of the expression followed by steps
that lead from there to what is wrong, and these do not depend on where the expression stands.
-/

namespace RustlyCore
namespace SchemaCompiler

/-- A step to a part. -/
inductive Step : String → Prop
  | of : Step ".of"
  | values : Step ".values"
  | optional : Step ".optional"
  | type : Step ".type"
  | field (index : Nat) : Step s!".fields[{index}]"
  | variant (index : Nat) : Step s!".values[{index}]"
  | option {key : String} : key ∈ ["min", "max", "min_size", "max_size", "format"] →
    Step s!".{key}"

/-- Steps one after the other. -/
inductive Steps : String → Prop
  | nil : Steps ""
  | cons {step steps : String} : Step step → Steps steps → Steps (step ++ steps)

/-- An error at some steps from the path. -/
def place {α : Type} (path : String) : Except (String × String) α → Parse α
  | .ok a => .ok a
  | .error (steps, message) => invalid (path ++ steps) message

/-- The outcome is one value or one error, placed at the path. -/
def Located {α : Type} (parse : String → Parse α) : Prop :=
  ∃ outcome, (∀ steps message, outcome = .error (steps, message) → Steps steps) ∧
    ∀ path, parse path = place path outcome

namespace Located

variable {α β : Type} {parse : String → Parse α}

theorem congr {parse' : String → Parse α} (h : Located parse')
    (heq : ∀ path, parse path = parse' path) : Located parse := by
  obtain ⟨outcome, hsteps, hplace⟩ := h
  exact ⟨outcome, hsteps, fun path => (heq path).trans (hplace path)⟩

theorem pure (a : α) : Located fun _ => (Pure.pure a : Parse α) :=
  ⟨.ok a, nofun, fun _ => rfl⟩

theorem invalid (message : String) : Located fun path => (invalid path message : Parse α) := by
  refine ⟨.error ("", message), ?_, ?_⟩
  · intro steps message' heq
    cases heq
    exact .nil
  · intro path
    rw [place, String.append_empty]

/-- One step further. -/
theorem step (h : Located parse) {step : String} (hstep : Step step) {below : String → String}
    (hbelow : ∀ path, below path = path ++ step) : Located fun path => parse (below path) := by
  obtain ⟨outcome, hsteps, hplace⟩ := h
  cases outcome with
  | ok a =>
    refine ⟨.ok a, nofun, fun path => ?_⟩
    exact hplace (below path)
  | error error =>
    obtain ⟨steps, message⟩ := error
    refine ⟨.error (step ++ steps, message), ?_, ?_⟩
    · intro steps' message' heq
      cases heq
      exact .cons hstep (hsteps steps message rfl)
    · intro path
      change parse (below path) = _
      rw [hplace, hbelow, place, place, String.append_assoc]

theorem bind {next : α → String → Parse β} (h : Located parse) (hnext : ∀ a, Located (next a)) :
    Located fun path => parse path >>= fun a => next a path := by
  obtain ⟨outcome, hsteps, hplace⟩ := h
  cases outcome with
  | ok a =>
    apply (hnext a).congr
    intro path
    rw [hplace]
    rfl
  | error error =>
    refine ⟨.error error, ?_, ?_⟩
    · intro steps message heq
      cases heq
      exact hsteps steps message rfl
    · intro path
      change parse path >>= _ = _
      rw [hplace]
      rfl

end Located

variable {x : Externals}

/-! ## Leaves -/

theorem parseI64_located (value : JsonValue) : Located (parseI64 x value) := by
  cases h : value.asI64 with
  | some i => exact (Located.pure i).congr fun path => by rw [parseI64, h]
  | none => exact (Located.invalid _).congr fun path => by rw [parseI64, h]

theorem parseF64_located (value : JsonValue) : Located (parseF64 x value) := by
  cases h : value.asF64 with
  | some f => exact (Located.pure f).congr fun path => by rw [parseF64, h]
  | none => exact (Located.invalid _).congr fun path => by rw [parseF64, h]

theorem parseUsize_located (value : JsonValue) : Located (parseUsize x value) := by
  cases h : value.asU64 with
  | some n => exact (Located.pure n.toNat).congr fun path => by rw [parseUsize, h]
  | none => exact (Located.invalid _).congr fun path => by rw [parseUsize, h]

theorem parseFormat_located (value : JsonValue) : Located (parseFormat value) := by
  unfold parseFormat
  split
  · exact .invalid _
  · exact .pure _
  · exact .pure _
  · exact .pure _
  · exact .invalid _

theorem removeParsed_located {α : Type} {parse : JsonValue → String → Parse α}
    (hparse : ∀ value, Located (parse value)) (options : JsonMap) {key : String}
    (hkey : key ∈ ["min", "max", "min_size", "max_size", "format"]) :
    Located (removeParsed parse options key) := by
  unfold removeParsed
  split
  next value rest _ =>
    refine ((hparse value).step (.option hkey) fun path => ?_).bind fun a => .pure (some a, rest)
    exact String.append_assoc
  next => exact .pure _

theorem applyIntConstraints_located (options : JsonMap) :
    Located (applyIntConstraints x options) := by
  unfold applyIntConstraints
  apply (removeParsed_located parseI64_located options (by simp)).bind
  intro min
  exact (removeParsed_located parseI64_located min.2 (by simp)).bind fun max => .pure _

theorem applyFloatConstraints_located (options : JsonMap) :
    Located (applyFloatConstraints x options) := by
  unfold applyFloatConstraints
  apply (removeParsed_located parseF64_located options (by simp)).bind
  intro min
  exact (removeParsed_located parseF64_located min.2 (by simp)).bind fun max => .pure _

theorem applyStringConstraints_located (options : JsonMap) :
    Located (applyStringConstraints x options) := by
  unfold applyStringConstraints
  apply (removeParsed_located parseUsize_located options (by simp)).bind
  intro minSize
  apply (removeParsed_located parseUsize_located minSize.2 (by simp)).bind
  intro maxSize
  exact (removeParsed_located parseFormat_located maxSize.2 (by simp)).bind fun format => .pure _

theorem applyCollectionConstraints_located (options : JsonMap) :
    Located (applyCollectionConstraints x options) := by
  unfold applyCollectionConstraints
  apply (removeParsed_located parseUsize_located options (by simp)).bind
  intro minSize
  exact (removeParsed_located parseUsize_located minSize.2 (by simp)).bind fun maxSize => .pure _

theorem parseVariants_located (items : List JsonValue) (index : Nat) (variants : List String) :
    Located fun path => parseVariants path index variants items := by
  induction items generalizing index variants with
  | nil => exact .pure variants
  | cons variant rest ih =>
    cases h : variant.asStr with
    | none =>
      have hbelow (path : String) : s!"{path}.values[{index}]" = path ++ s!".values[{index}]" := by
        simp only [String.append_assoc]
        rfl
      have hinvalid : Located fun path =>
          (invalid s!"{path}.values[{index}]" "enum values must be strings" :
            Parse (List String)) :=
        (Located.invalid _).step (.variant index) hbelow
      exact hinvalid.congr fun path => by rw [parseVariants, h]
    | some asStr => exact (ih _ _).congr fun path => by rw [parseVariants, h]

theorem parseEnumType_located (inlineValues : Option JsonValue)
    (inlineOptions fieldOptions : Option JsonMap) :
    Located (parseEnumType inlineValues inlineOptions fieldOptions) := by
  unfold parseEnumType
  dsimp only
  split
  next => exact .invalid _
  next value _ =>
    split
    next => exact .invalid _
    next items _ =>
      apply (parseVariants_located items 0 []).bind
      intro variants
      split
      next => exact .invalid _
      next => exact .pure _

theorem parseExtra_located (value : Option JsonValue) : Located (parseExtra x value) := by
  rw [show parseExtra x value = _ from funext fun path => parseExtra.eq_def x value path]
  split
  · exact .pure _
  · exact .pure _
  · exact .pure _
  · exact .pure _
  · exact .invalid _
  · exact .invalid _

theorem parsePresence_located (value : JsonValue) : Located (parsePresence value) := by
  unfold parsePresence
  split
  · exact .invalid _
  · exact .pure _
  · exact .pure _
  · exact .invalid _

/-! ## Type expressions

The induction is on the size of a value and its field options, as the parser's recursion is.
-/

variable (x) in
def LocatedBelow (n : Nat) : Prop :=
  ∀ value fieldOptions, sizeOf value + sizeOfOptions fieldOptions < n →
    Located (parseTypeExpr x value fieldOptions)

theorem LocatedBelow.mono {m n : Nat} (h : LocatedBelow x n) (hle : m ≤ n) : LocatedBelow x m :=
  fun value fieldOptions hlt => h value fieldOptions (hlt.trans_le hle)

section
variable {apart : Option JsonValue} {options : JsonMap}
  (ih : LocatedBelow x (sizeOfGiven apart + sizeOf options))
include ih

theorem parseListType_located : Located (parseListType x apart options) := by
  cases h : removeFirst apart ["of", "item"] options with
  | mk first rest =>
    cases first with
    | none =>
      apply (Located.invalid "list type requires an `of` element specification").congr
      intro path
      rw [parseListType]
      split
      next => rfl
      next heq => cases h.symm.trans heq
    | some value =>
      have hsize := sizeOf_removeFirst (congrArg Prod.fst h)
      have hvalue := (ih value none (by simpa using hsize)).step .of fun path => rfl
      refine (hvalue.bind fun element => (applyCollectionConstraints_located (x := x) rest).bind
        fun constraints => .pure (.list element constraints)).congr ?_
      intro path
      rw [parseListType]
      split
      next heq => cases h.symm.trans heq
      next heq =>
        cases h.symm.trans heq
        rfl

theorem parseDictType_located : Located (parseDictType x apart options) := by
  cases h : removeFirst apart ["values", "value"] options with
  | mk first rest =>
    cases first with
    | none =>
      apply (Located.invalid "dict type requires a `values` specification").congr
      intro path
      rw [parseDictType]
      split
      next => rfl
      next heq => cases h.symm.trans heq
    | some value =>
      have hsize := sizeOf_removeFirst (congrArg Prod.fst h)
      have hvalue := (ih value none (by simpa using hsize)).step .values fun path => rfl
      refine (hvalue.bind fun element => (applyCollectionConstraints_located (x := x) rest).bind
        fun constraints => .pure (.dict element constraints)).congr ?_
      intro path
      rw [parseDictType]
      split
      next heq => cases h.symm.trans heq
      next heq =>
        cases h.symm.trans heq
        rfl

theorem parseOptionalType_located : Located (parseOptionalType x apart options) := by
  cases h : removeFirst apart ["of"] options with
  | mk first rest =>
    cases first with
    | none =>
      apply (Located.invalid "optional type requires an inner type").congr
      intro path
      rw [parseOptionalType]
      split
      next => rfl
      next heq => cases h.symm.trans heq
    | some value =>
      have hsize := sizeOf_removeFirst (congrArg Prod.fst h)
      have hvalue := (ih value none (by simpa using hsize)).step .of fun path => rfl
      refine (hvalue.bind fun inner => .pure (.optional inner)).congr ?_
      intro path
      rw [parseOptionalType]
      split
      next heq => cases h.symm.trans heq
      next heq =>
        cases h.symm.trans heq
        rfl

end

theorem parseFieldEntry_located {entry : JsonValue} (ih : LocatedBelow x (sizeOf entry)) :
    Located (parseFieldEntry x entry) := by
  rw [show parseFieldEntry x entry = _ from
    funext fun path => parseFieldEntry.eq_def x entry path]
  split
  next presenceRaw nameValue typeValue items =>
    apply (parsePresence_located presenceRaw).bind
    intro presence
    cases nameValue.asStr with
    | none => exact .invalid _
    | some name =>
      have hsize : sizeOf typeValue + sizeOfOptions (inlineObject items) <
          sizeOf (JsonValue.array (presenceRaw :: nameValue :: typeValue :: items)) := by
        have := sizeOf_inlineObject items
        simp only [JsonValue.array.sizeOf_spec, List.cons.sizeOf_spec]
        omega
      exact ((ih _ _ hsize).step .type fun path => rfl).bind fun ty =>
        .pure (FieldExpr.mk name presence ty)
  next => exact .invalid _
  next => exact .invalid _

theorem parseFieldEntries_located {entries : List JsonValue}
    (ih : LocatedBelow x (sizeOf entries)) (index : Nat) :
    Located (parseFieldEntries x index entries) := by
  induction entries generalizing index with
  | nil => exact (Located.pure []).congr fun path => by rw [parseFieldEntries]
  | cons entry entries ihe =>
    rw [List.cons.sizeOf_spec] at ih
    have hbelow (path : String) : s!"{path}.fields[{index}]" = path ++ s!".fields[{index}]" := by
      simp only [String.append_assoc]
      rfl
    have hbelowEntry : LocatedBelow x (sizeOf entry) := ih.mono (by omega)
    have hentry := (parseFieldEntry_located hbelowEntry).step (.field index) hbelow
    have hentries := ihe (ih.mono (by omega)) (index + 1)
    refine (hentry.bind fun field => hentries.bind fun fields => .pure (field :: fields)).congr ?_
    intro path
    rw [parseFieldEntries]

theorem parseFieldsArray_located {value : JsonValue} (ih : LocatedBelow x (sizeOf value)) :
    Located (parseFieldsArray x value) := by
  rw [show parseFieldsArray x value = _ from
    funext fun path => parseFieldsArray.eq_def x value path]
  cases value with
  | array entries =>
    rw [JsonValue.array.sizeOf_spec] at ih
    exact parseFieldEntries_located (ih.mono (by omega)) 0
  | _ => exact .invalid _

theorem parseStructType_located {options : JsonMap} (ih : LocatedBelow x (sizeOf options)) :
    Located (parseStructType x none options) := by
  cases h : removeFirst none ["fields"] options with
  | mk first rest =>
    cases first with
    | none =>
      apply (Located.invalid "struct type requires a `fields` array").congr
      intro path
      rw [parseStructType]
      split
      next => rfl
      next heq => cases h.symm.trans heq
    | some value =>
      have hsize := sizeOf_removeFirst (congrArg Prod.fst h)
      have hfields : LocatedBelow x (sizeOf value) :=
        ih.mono (by simpa [sizeOfGiven] using hsize.le)
      have hvalue := parseFieldsArray_located hfields
      refine ((parseExtra_located (x := x) (rest.remove "extra").1).bind fun extra =>
        hvalue.bind fun fields => .pure (.struct fields extra)).congr ?_
      intro path
      rw [parseStructType]
      split
      next heq => cases h.symm.trans heq
      next heq =>
        cases h.symm.trans heq
        rfl

theorem parseNamedType_located {inlineOptions fieldOptions : Option JsonMap}
    (ih : LocatedBelow x (sizeOf (mergeOptions inlineOptions fieldOptions))) (name : String) :
    Located (parseNamedType x name inlineOptions fieldOptions) := by
  have ih' : LocatedBelow x
      (sizeOfGiven none + sizeOf (mergeOptions inlineOptions fieldOptions)) := by
    simpa [sizeOfGiven] using ih
  rw [show parseNamedType x name inlineOptions fieldOptions = _ from
    funext fun path => parseNamedType.eq_def x name inlineOptions fieldOptions path]
  generalize x.toLowercase name = canonical
  split
  · exact .pure _
  · exact .pure _
  · exact .pure _
  · exact (applyIntConstraints_located _).bind fun constraints => .pure _
  · exact (applyIntConstraints_located _).bind fun constraints => .pure _
  · exact (applyFloatConstraints_located _).bind fun constraints => .pure _
  · exact (applyFloatConstraints_located _).bind fun constraints => .pure _
  · exact (applyStringConstraints_located _).bind fun constraints => .pure _
  · exact (applyStringConstraints_located _).bind fun constraints => .pure _
  · exact .pure _
  · exact .pure _
  · exact parseEnumType_located none inlineOptions fieldOptions
  · exact parseListType_located ih'
  · exact parseDictType_located ih'
  · exact parseOptionalType_located ih'
  · exact parseStructType_located ih
  · exact .invalid _

theorem parseArrayType_located {items : List JsonValue} {fieldOptions : Option JsonMap}
    (ih : LocatedBelow x (sizeOf items + sizeOfOptions fieldOptions + 1)) :
    Located (parseArrayType x items fieldOptions) := by
  rw [show parseArrayType x items fieldOptions = _ from
    funext fun path => parseArrayType.eq_def x items fieldOptions path]
  split
  next => exact .invalid _
  next tag items =>
    have hmerge := sizeOf_mergeOptions (inlineObject items) fieldOptions
    have hinline := sizeOf_inlineObject items
    rw [List.cons.sizeOf_spec] at ih
    split
    next => exact .invalid _
    next => exact .invalid _
    next innerType rest _ =>
      have hinner : Located (parseTypeExpr x innerType fieldOptions) := by
        apply ih
        rw [List.cons.sizeOf_spec]
        omega
      exact (hinner.step .optional fun path => rfl).bind fun inner =>
        .pure (TypeExpr.optional inner)
    next => exact .invalid _
    next elementType rest _ =>
      have := sizeOf_mergeOptions (inlineObject rest) fieldOptions
      have := sizeOf_inlineObject rest
      apply parseListType_located
      apply ih.mono
      simp only [sizeOfGiven, List.cons.sizeOf_spec]
      omega
    next => exact .invalid _
    next valueType rest _ =>
      have := sizeOf_mergeOptions (inlineObject rest) fieldOptions
      have := sizeOf_inlineObject rest
      apply parseDictType_located
      apply ih.mono
      simp only [sizeOfGiven, List.cons.sizeOf_spec]
      omega
    next rest _ _ _ => exact parseEnumType_located rest.head? fieldOptions none
    next => exact parseStructType_located (ih.mono (by omega))
    next =>
      apply parseNamedType_located
      have := sizeOf_mergeOptions none fieldOptions
      apply ih.mono
      rw [sizeOfOptions_none] at this
      omega

theorem parseTypeExpr_located_step {value : JsonValue} {fieldOptions : Option JsonMap}
    (ih : LocatedBelow x (sizeOf value + sizeOfOptions fieldOptions)) :
    Located (parseTypeExpr x value fieldOptions) := by
  rw [show parseTypeExpr x value fieldOptions = _ from
    funext fun path => parseTypeExpr.eq_def x value fieldOptions path]
  split
  next name =>
    apply parseNamedType_located
    have := sizeOf_mergeOptions none fieldOptions
    apply ih.mono
    simp only [sizeOfOptions_none, JsonValue.string.sizeOf_spec] at this ⊢
    omega
  next map =>
    split
    next name _ =>
      apply parseNamedType_located
      have := sizeOf_mergeOptions (some (inlineMapWithout map ["type"])) fieldOptions
      have := sizeOf_inlineMapWithout map ["type"]
      apply ih.mono
      simp only [sizeOfOptions_some, JsonValue.object.sizeOf_spec] at *
      omega
    next => exact .invalid _
  next items =>
    apply parseArrayType_located
    apply ih.mono
    rw [JsonValue.array.sizeOf_spec]
    omega
  next => exact .invalid _

theorem locatedBelow (n : Nat) : LocatedBelow x n := by
  induction n with
  | zero => exact fun _ _ hlt => absurd hlt (Nat.not_lt_zero _)
  | succ n ih =>
    intro value fieldOptions hlt
    exact parseTypeExpr_located_step (ih.mono (Nat.le_of_lt_succ hlt))

/-- Where an expression stands is in the path of its error and in nothing else. -/
theorem parseTypeExpr_located (value : JsonValue) (fieldOptions : Option JsonMap) :
    Located (parseTypeExpr x value fieldOptions) :=
  locatedBelow _ value fieldOptions (Nat.lt_succ_self _)

end SchemaCompiler
end RustlyCore
