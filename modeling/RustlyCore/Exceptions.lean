import RustlyCore.Messages
import RustlyCore.Validation.Bytes

/-!
# What calls raise

Which exceptions the calls of the extension end in. They never panic, and the errors they answer or
raise can be shown as messages.
-/

namespace RustlyCore

variable {x : Externals}

/-! ## Exceptions -/

/-- What Ruby itself raises through the extension. -/
inductive RubyException.Native : RubyException → Prop
  | range : Native .rangeError
  | encoding : Native .encodingError
  | argument (message : String) : Native (.argumentError message)

/-- What reaches the caller of `validate` or `build`. -/
def RubyException.Expected (exception : RubyException) : Prop :=
  exception.Native ∨ ∃ errors : ErrorSet, errors.Normal ∧ exception = .validationError errors

theorem RubyException.Native.expected {exception : RubyException} (h : exception.Native) :
    exception.Expected :=
  .inl h

open Fallible RubyException

variable {U : Prop}

section
variable {ε : Type}

theorem num2ll_safe (i : Int) : Safe Native U (num2ll i : Result ε Int64) := by
  rw [num2ll]
  split
  · exact safe_pure _
  · exact safe_raise .range

theorem allocStrFromBytes_safe {bytes : ByteArray} (h : ¬ bytes.IsValidUTF8 → U) :
    Safe Native U (allocStrFromBytes bytes : Result ε String) := by
  rw [allocStrFromBytes, String.fromUTF8?]
  by_cases hvalid : bytes.IsValidUTF8
  · rw [dif_pos hvalid]
    exact safe_pure _
  · rw [dif_neg hvalid]
    exact safe_undefined (h hvalid)

theorem stringToOwned_safe (value : RubyValue) :
    Safe Native U (stringToOwned value : Result ε (Option String)) := by
  cases value with
  | string basic bytes =>
    rw [stringToOwned]
    split
    · exact safe_raise (.argument _)
    · exact safe_pure _
  | _ => exact safe_pure _

theorem intern_safe (name : String) : Safe Native U (intern x name : Result ε String) := by
  rw [intern]
  split
  · exact safe_pure _
  · exact safe_raise .encoding

end

/-! ### Preparing -/

/-- What is undefined comes of a text that is not valid. -/
def InvalidOnly (U : Prop) (r : RubyValue) : Prop := ∀ b, r.HasText b → ¬ b.IsValidUTF8 → U

theorem extractHashKey_safe (path : List PathSegment) {key : RubyValue} (h : InvalidOnly U key) :
    Safe Native U (extractHashKey path key) := by
  cases key with
  | string basic bytes => exact allocStrFromBytes_safe (h bytes (.string basic bytes))
  | symbol bytes => exact allocStrFromBytes_safe (h bytes (.symbol bytes))
  | _ => exact safe_fail _

theorem convertArray_safe {items : List RubyValue}
    (ih : ∀ r ∈ items, ∀ path, Safe Native U (convertRubyValue path r)) (path : List PathSegment)
    (index : Nat) : Safe Native U (convertArray path index items) := by
  induction items generalizing index with
  | nil => exact safe_pure _
  | cons r items ihi =>
    obtain ⟨hr, hitems⟩ := List.forall_mem_cons.1 ih
    rw [convertArray]
    exact safe_bind (hr _) fun _ _ => safe_map (ihi hitems _)

theorem convertHash_safe {entries : List (RubyValue × RubyValue)}
    (hkeys : ∀ p ∈ entries, InvalidOnly U p.1)
    (ih : ∀ p ∈ entries, ∀ path, Safe Native U (convertRubyValue path p.2))
    (path : List PathSegment) : Safe Native U (convertHash path entries) := by
  induction entries with
  | nil => exact safe_pure _
  | cons p entries ihe =>
    obtain ⟨hkey, hkeys⟩ := List.forall_mem_cons.1 hkeys
    obtain ⟨hp, hentries⟩ := List.forall_mem_cons.1 ih
    rw [convertHash]
    refine safe_bind (extractHashKey_safe path hkey) fun key _ => ?_
    exact safe_bind (hp _) fun _ _ => safe_map (ihe hkeys hentries)

theorem convertRubyValue_safe (path : List PathSegment) {r : RubyValue} (h : InvalidOnly U r) :
    Safe Native U (convertRubyValue path r) := by
  induction r generalizing path with
  | nil | bool | float => exact safe_pure _
  | integer i => exact safe_map (num2ll_safe i)
  | string basic bytes =>
    exact safe_map (allocStrFromBytes_safe (h bytes (.string basic bytes)))
  | symbol bytes => exact safe_map (allocStrFromBytes_safe (h bytes (.symbol bytes)))
  | array basic items ih =>
    rw [convertRubyValue]
    refine safe_map (convertArray_safe (fun r hr path => ih r hr path fun b hb => ?_) path 0)
    exact h b (.element hr hb)
  | hash basic entries ih =>
    rw [convertRubyValue]
    refine safe_map (convertHash_safe ?_ (fun p hp path => ?_) path)
    · exact fun p hp b hb => h b (.key hp hb)
    · exact (ih p hp).2 path fun b hb => h b (.value hp hb)
  | object => exact safe_fail _

theorem prepareInput_safe {input : RubyValue} (h : InvalidOnly U input) (mode : InputMode) :
    Safe Native U (prepareInput input mode) := by
  have hjson : Safe Native U (prepareJson input) := by
    refine safe_bind (stringToOwned_safe input) fun found _ => ?_
    cases found with
    | none => exact safe_fail _
    | some source => exact safe_pure _
  have howned : Safe Native U (convertOwned input) := safe_map (convertRubyValue_safe [] h)
  cases mode with
  | json => exact hjson
  | ruby => exact howned
  | auto =>
    cases input with
    | string => exact hjson
    | _ => exact howned

/-! ### Materialising -/

theorem symbolToValue_safe (name : String) : Safe Native U (symbolToValue x name) := by
  rw [symbolToValue]
  split
  · exact safe_fail _
  · exact safe_map (intern_safe name)

theorem attributeKeyValue_safe (name : String) : Safe Native U (attributeKeyValue name) := by
  rw [attributeKeyValue]
  split
  · exact safe_fail _
  · exact safe_pure _

theorem itemsToRuby_safe {items : List OwnedValue}
    (ih : ∀ v ∈ items, Safe Native U (ownedValueToRuby x v)) :
    Safe Native U (itemsToRuby x items) := by
  induction items with
  | nil => exact safe_pure _
  | cons v items ihi =>
    obtain ⟨hv, hitems⟩ := List.forall_mem_cons.1 ih
    rw [itemsToRuby]
    exact safe_bind hv fun _ _ => safe_map (ihi hitems)

theorem buildHash_safe {map : OwnedDict}
    (ih : ∀ p ∈ map, Safe Native U (ownedValueToRuby x p.2))
    (entries : List (RubyValue × RubyValue)) : Safe Native U (buildHash x entries map) := by
  induction map generalizing entries with
  | nil => exact safe_pure _
  | cons p map ihm =>
    obtain ⟨hp, hmap⟩ := List.forall_mem_cons.1 ih
    rw [buildHash]
    refine safe_bind (symbolToValue_safe _) fun _ _ => ?_
    exact safe_bind hp fun _ _ => ihm hmap _

theorem fieldsToRuby_safe {fields : List (Option OwnedValue)}
    (ih : ∀ v, some v ∈ fields → Safe Native U (ownedValueToRuby x v))
    (entries : List (RubyValue × RubyValue)) (names : List String) :
    Safe Native U (fieldsToRuby x entries names fields) := by
  induction fields generalizing entries names with
  | nil => cases names <;> exact safe_pure _
  | cons field fields ihf =>
    have hfields v (hv : some v ∈ fields) := ih v (List.mem_cons_of_mem _ hv)
    cases names with
    | nil => cases field <;> exact safe_pure _
    | cons name names =>
      cases field with
      | none =>
        rw [fieldsToRuby]
        exact ihf hfields _ _
      | some v =>
        rw [fieldsToRuby]
        refine safe_bind (ih v List.mem_cons_self) fun _ _ => ?_
        exact safe_bind (symbolToValue_safe _) fun _ _ => ihf hfields _ _

theorem extrasToRuby_safe {extras : OwnedDict}
    (ih : ∀ p ∈ extras, Safe Native U (ownedValueToRuby x p.2))
    (entries : List (RubyValue × RubyValue)) : Safe Native U (extrasToRuby x entries extras) := by
  induction extras generalizing entries with
  | nil => exact safe_pure _
  | cons p extras ihe =>
    obtain ⟨hp, hextras⟩ := List.forall_mem_cons.1 ih
    rw [extrasToRuby]
    refine safe_bind hp fun _ _ => ?_
    exact safe_bind (attributeKeyValue_safe _) fun _ _ => ihe hextras _

theorem ownedValueToRuby_safe (w : OwnedValue) : Safe Native U (ownedValueToRuby x w) := by
  induction w with
  | null | bool | int | float | string => exact safe_pure _
  | symbol s => exact symbolToValue_safe s
  | list items ih =>
    rw [ownedValueToRuby]
    exact safe_map (itemsToRuby_safe ih)
  | dict map ih =>
    rw [ownedValueToRuby]
    exact safe_map (buildHash_safe ih [])
  | struct names fields extras ihfields ihextras =>
    rw [ownedValueToRuby]
    refine safe_bind (fieldsToRuby_safe ihfields [] names) fun entries _ => safe_map ?_
    cases extras with
    | none => exact safe_pure _
    | some extras => exact extrasToRuby_safe (ihextras extras rfl) entries

theorem storedValue_safe (freezeMode : FreezeMode) (value : OwnedValue) :
    Safe Native U (storedValue x freezeMode value) :=
  safe_map (ownedValueToRuby_safe value)

theorem storeFields_safe (freezeMode : FreezeMode) (names : List String)
    (fields : List (Option OwnedValue)) (building : Building) (entries : List MaterializeEntry) :
    Safe Native U (storeFields x freezeMode names fields building entries) := by
  induction entries generalizing building with
  | nil => exact safe_pure _
  | cons entry entries ih =>
    rw [storeFields]
    split
    · exact ih _
    · exact safe_bind (storedValue_safe _ _) fun _ _ => ih _

theorem storeExtras_safe (freezeMode : FreezeMode) (building : Building) (extras : OwnedDict) :
    Safe Native U (storeExtras x freezeMode building extras) := by
  induction extras generalizing building with
  | nil => exact safe_pure _
  | cons extra extras ih =>
    rw [storeExtras]
    refine safe_bind (storedValue_safe _ _) fun _ _ => ?_
    split
    · exact ih _
    · exact safe_bind (attributeKeyValue_safe _) fun _ _ => ih _

theorem materializeInstance_safe (klass : String) (attrIvar : Option String) (root : OwnedValue)
    (plan : MaterializePlan) (freezeMode : FreezeMode) (storeAttributes : Bool) :
    Safe Native U
      (materializeInstance x klass attrIvar root plan freezeMode storeAttributes) := by
  cases root with
  | struct structure_ =>
    rw [materializeInstance]
    refine safe_bind (storeFields_safe _ _ _ _ _) fun _ _ => ?_
    exact safe_map (storeExtras_safe _ _ _)
  | _ => exact safe_fail _

/-! ### Calls -/

/-- A validation without the lock always returns. -/
theorem validateNoGvl_ok (schema : SchemaIr) (input : PreparedInput) (o : ValidationOptions) :
    ∃ result, validateNoGvl x schema input o = .ok result ∧
      validatePreparedInput x schema input o = some result := by
  obtain ⟨result, hresult, -⟩ := validatePreparedInput_total (x := x) schema input o
  refine ⟨result, ?_, hresult⟩
  rw [validateNoGvl, hresult]
  rfl

/-- Neither call panics. Besides what Ruby raises, a build raises normal error sets. -/
theorem build_safe (compiled : CompiledSchema) {input : RubyValue} (h : InvalidOnly U input)
    (klass : String) : Safe Expected U (build x compiled input klass) := by
  have hraise {errors : ErrorSet} (h : errors.Normal) :
      Safe Expected U (raiseValidationError errors : Call RubyValue) :=
    safe_raise (.inr ⟨errors, h, rfl⟩)
  rw [build]
  have hprepare := (prepareInput_safe h compiled.options.inputMode).imp
    (fun _ => RubyException.Native.expected) id
  refine safe_bind (safe_attempt hprepare) fun prepared _ => ?_
  cases prepared with
  | error error => exact hraise (errorSetFromInputError_normal error)
  | ok prepared =>
    obtain ⟨result, hok, hresult⟩ := validateNoGvl_ok (x := x) compiled.ir prepared compiled.options
    dsimp only
    rw [hok, ok_bind]
    rcases validatePreparedInput_cases (x := x) compiled.ir prepared compiled.options with
      ⟨w, hw⟩ | ⟨result', hresult', hissues⟩
    · cases hresult.symm.trans hw
      have hmaterialize := (materializeInstance_safe (x := x) (U := U) klass attrIvarName w
        compiled.plan compiled.options.freeze compiled.options.storeAttributes).imp
        (fun _ => RubyException.Native.expected) id
      refine safe_bind (safe_attempt hmaterialize) fun outcome _ => ?_
      cases outcome with
      | ok instance_ => exact safe_pure _
      | error error => exact hraise (errorSetFromMaterializeError_normal error)
    · cases hresult.symm.trans hresult'
      rw [if_pos (by simpa using hissues)]
      exact hraise (errorSetFromIssues_normal hresult)

theorem validate_errors {compiled : CompiledSchema} {input opts : RubyValue} {errors : ErrorSet}
    (h : validate x compiled input opts = .ok (.invalid errors)) : errors.Normal := by
  obtain ⟨options, -, h⟩ := bind_eq_ok.1 h
  obtain ⟨prepared, -, h⟩ := bind_eq_ok.1 h
  cases prepared with
  | error error =>
    cases h
    exact errorSetFromInputError_normal error
  | ok prepared =>
    obtain ⟨result, hok, hresult⟩ := validateNoGvl_ok (x := x) compiled.ir prepared options
    dsimp only at h
    rw [hok, ok_bind] at h
    split at h
    · cases h
    · cases h
      exact errorSetFromIssues_normal hresult

/-- The errors that a call answers or raises can be shown, whole, and made into an exception. -/
theorem errors_readable
    (hinterns : ∀ s, Text.isAscii s = true → Text.containsNul s = false → x.interns s = true)
    (hgenerate : ∀ r : RubyValue, r.Generatable 100 → ∃ text, x.generate r = .ok text)
    {compiled : CompiledSchema} {input opts : RubyValue} {klass : String} {errors : ErrorSet}
    (h : validate x compiled input opts = .ok (.invalid errors) ∨
      build x compiled input klass = .raise (.validationError errors)) :
    ∃ r, errorSetMessages x errors = .ok r ∧ r.readMessages = some errors ∧
      ∃ text, validationErrorMessage x errors = .ok text := by
  have hnormal : errors.Normal := by
    rcases h with h | h
    · exact validate_errors h
    · have hinvalid : InvalidOnly True input := fun _ _ _ => trivial
      have hsafe := build_safe (x := x) compiled hinvalid klass
      rw [h] at hsafe
      rcases hsafe with hnative | ⟨errors', hnormal, heq⟩
      · cases hnative
      · cases heq
        exact hnormal
  obtain ⟨r, hr, hgeneratable, hreads⟩ := errorSetMessages_reads hinterns hnormal
  obtain ⟨text, htext⟩ := hgenerate r (hgeneratable.mono (by decide))
  refine ⟨r, hr, hreads, text, ?_⟩
  rw [validationErrorMessage, hr, ok_bind, htext]
  rfl

/-- The other libraries, with a `JSON.generate` that writes its text. -/
def generatingExternals : Externals :=
  { tagExternals with generate := fun r => (generateText 100 r).map .utf8Str }

/-- An object that is no document. -/
theorem errors_readable_object :
    let errors := errorSetFromInputError (.unsupportedType "" "Object")
    ∃ r, errorSetMessages generatingExternals errors = .ok r ∧ r.readMessages = some errors ∧
      ∃ text, validationErrorMessage generatingExternals errors = .ok text := by
  intro errors
  have hinterns (s : String) (hascii : Text.isAscii s = true) (_ : Text.containsNul s = false) :
      generatingExternals.interns s = true := hascii
  have hgenerate (r : RubyValue) (hr : r.Generatable 100) :
      ∃ text, generatingExternals.generate r = .ok text := by
    obtain ⟨text, htext⟩ := generateText_ok hr
    exact ⟨.utf8Str text, congrArg (Except.map RubyValue.utf8Str) htext⟩
  have h : validate generatingExternals tagSchema (.object ⟨"Object", false⟩ []) .nil =
      .ok (.invalid errors) := by
    rfl
  exact @errors_readable generatingExternals hinterns hgenerate tagSchema
    (.object ⟨"Object", false⟩ []) .nil "Object" errors (.inl h)

example : validationErrorMessage generatingExternals (errorSetFromInputError
    (.unsupportedType "[0]" "Object")) =
    .ok (.utf8Str ("[\x7b\"path\":\"[0]\",\"code\":\"type_mismatch\"," ++
      "\"meta\":\x7b\"actual\":\"Object\",\"expected\":\"json_value\"\x7d\x7d]")) := by
  rfl

end RustlyCore
