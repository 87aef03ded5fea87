import RustlyCore.Build
import RustlyCore.Memory.Conversion

/-!
# The calls in memory (`build_internal`, `validate`)

A call prepares its input, validates what it has prepared, and ends: a `validate` with its answer, a
`build` with the instance that it makes. Only the first and the last part see objects.
-/

namespace RustlyCore

open Bounded (settled exhausted)
open Memory (KeepsAll)

namespace Objects

/-! ## Preparing -/

/-- `string_to_owned`. -/
def stringToOwned {ε : Type} (h : Heap) : Value → Result ε (Option String)
  | .ref a =>
    match h[a]? with
    | some (.string basic bytes) => RustlyCore.stringToOwned (.string basic bytes)
    | _ => return none
  | _ => return none

/-- `class_name`. -/
def className (h : Heap) : Value → String
  | .ref a => (h[a]?).elim "Unknown" (·.basic.klass)
  | value => immediateClass value

/-- Whether the object is a String. -/
def isString (h : Heap) : Value → Bool
  | .ref a =>
    match h[a]? with
    | some (.string _ _) => true
    | _ => false
  | _ => false

def prepareJson (h : Heap) (value : Value) : Result InputError PreparedInput := do
  match ← stringToOwned h value with
  | some string => return .json string
  | none => .fail (.expectedString (className h value))

def convertOwned (h : Heap) (value : Value) : Conversion PreparedInput := do
  return .owned (← convertRubyValue h [] value)

def prepareInput (h : Heap) (value : Value) (mode : InputMode) : Conversion PreparedInput :=
  match mode with
  | .json => settled (prepareJson h value)
  | .ruby => convertOwned h value
  | .auto => if isString h value then settled (prepareJson h value) else convertOwned h value

section
variable {h : Heap} {v : Value} {t : RubyValue}

theorem stringToOwned_unfolds {ε : Type} (ht : h.Unfolds v t) :
    (stringToOwned h v : Result ε _) = RustlyCore.stringToOwned t := by
  cases t with
  | string basic bytes =>
    obtain ⟨a, rfl, hslot⟩ := ht
    rw [stringToOwned, hslot]
  | array | hash =>
    obtain ⟨a, _, rfl, hslot, -⟩ := ht
    rw [stringToOwned, hslot]
    rfl
  | object =>
    obtain ⟨-, a, _, rfl, hslot⟩ := ht
    rw [stringToOwned, hslot]
    rfl
  | _ =>
    cases ht
    rfl

theorem className_unfolds (ht : h.Unfolds v t) : className h v = t.className := by
  cases t with
  | string =>
    obtain ⟨a, rfl, hslot⟩ := ht
    rw [className, hslot]
    rfl
  | array | hash =>
    obtain ⟨a, _, rfl, hslot, -⟩ := ht
    rw [className, hslot]
    rfl
  | object =>
    obtain ⟨-, a, _, rfl, hslot⟩ := ht
    rw [className, hslot]
    rfl
  | _ =>
    cases ht
    rfl

theorem prepareJson_unfolds (ht : h.Unfolds v t) : prepareJson h v = RustlyCore.prepareJson t := by
  rw [prepareJson, stringToOwned_unfolds ht, className_unfolds ht]
  rfl

theorem convertOwned_unfolds (ht : h.Unfolds v t) :
    convertOwned h v = settled (RustlyCore.convertOwned t) := by
  obtain ⟨depth, hconverts⟩ := convertsAs_of_unfolds ht
  have hconverted := convertRubyValue_eq (hconverts depth (Nat.le_refl depth) [])
  rw [convertOwned, hconverted, RustlyCore.convertOwned]
  cases RustlyCore.convertRubyValue [] t <;> rfl

/-- A tree in memory is prepared as the tree itself. -/
theorem prepareInput_unfolds (ht : h.Unfolds v t) (mode : InputMode) :
    prepareInput h v mode = settled (RustlyCore.prepareInput t mode) := by
  cases mode with
  | json => exact congrArg settled (prepareJson_unfolds ht)
  | ruby => exact convertOwned_unfolds ht
  | auto =>
    rw [prepareInput]
    cases t with
    | string basic bytes =>
      rw [prepareJson_unfolds ht]
      obtain ⟨a, rfl, hslot⟩ := ht
      rw [isString, hslot]
      rfl
    | array | hash =>
      rw [convertOwned_unfolds ht]
      obtain ⟨a, _, rfl, hslot, -⟩ := ht
      rw [isString, hslot]
      rfl
    | object =>
      rw [convertOwned_unfolds ht]
      obtain ⟨-, a, _, rfl, hslot⟩ := ht
      rw [isString, hslot]
      rfl
    | _ =>
      rw [convertOwned_unfolds ht]
      cases ht
      rfl

end

end Objects

/-! ## The parts of a call -/

/-- What a thread asks for. A schema is given by its place in the order in which the schemas were
made, options by what they are when the call begins. `build_synced` keeps the lock. -/
inductive Request where
  | validate (schema : Nat) (input : Value) (opts : RubyValue)
  | build (schema : Nat) (input : Value) (klass : String)
  | buildSynced (schema : Nat) (input : Value) (klass : String)

inductive Reply where
  | answer (answer : Answer)
  | instance_ (instance_ : Value)

namespace Request

def schema : Request → Nat
  | validate schema _ _ | build schema _ _ | buildSynced schema _ _ => schema

def input : Request → Value
  | validate _ input _ | build _ input _ | buildSynced _ input _ => input

/-- The class of the instance that is asked for. -/
def klass : Request → Option String
  | validate _ _ _ => none
  | build _ _ klass | buildSynced _ _ klass => some klass

def synced : Request → Bool
  | buildSynced _ _ _ => true
  | _ => false

def options (compiled : CompiledSchema) : Request → Call ValidationOptions
  | validate _ _ opts => callOptions compiled opts
  | _ => return compiled.options

/-- The input could not be prepared. -/
def reject {α : Type} (error : InputError) : Request → Call (Reply ⊕ α)
  | validate _ _ _ => return .inl (.answer (.invalid (errorSetFromInputError error)))
  | _ => raiseValidationError (errorSetFromInputError error)

/-- Up to `validate_no_gvl`: the end of the call or what is to be validated. -/
def begin (h : Heap) (compiled : CompiledSchema) (request : Request) :
    Bounded (Stop RubyException Empty) (Reply ⊕ ValidationOptions × PreparedInput) := do
  let options ← settled (request.options compiled)
  match ← Bounded.attempt (Objects.prepareInput h request.input options.inputMode) with
  | .error error => settled (request.reject error)
  | .ok preparedInput => return .inr (options, preparedInput)

variable (x : Externals)

/-- `materialize_instance` as it is called. What a failed one has allocated is garbage. -/
def materialize (h : Heap) (compiled : CompiledSchema) (options : ValidationOptions)
    (klass : String) (result : ValidationResult) : Call (Reply × Heap) :=
  if !result.issues.isEmpty then raiseValidationError (errorSetFromIssues result.issues)
  else
    match result.output with
    | none => .panic
    | some prepared => do
      match ← Fallible.attempt ((Objects.materializeInstance x klass attrIvarName prepared
          compiled.plan options.freeze options.storeAttributes).run h) with
      | .ok (instance_, h') => return (.instance_ instance_, h')
      | .error error => raiseValidationError (errorSetFromMaterializeError error)

/-- What follows on `validate_no_gvl`. -/
def finish (h : Heap) (compiled : CompiledSchema) (options : ValidationOptions)
    (result : ValidationResult) : Request → Call (Reply × Heap)
  | validate _ _ _ =>
    return (.answer (if result.isValid then .valid
      else .invalid (errorSetFromIssues result.issues)), h)
  | build _ _ klass | buildSynced _ _ klass => materialize x h compiled options klass result

/-- The call returned this, in the end in this heap, and the same call of the tree did. -/
def Answers (compiled : CompiledSchema) (t : RubyValue) (reply : Call Reply) (h' : Heap) :
    Request → Prop
  | validate _ _ opts => reply = Reply.answer <$> RustlyCore.validate x compiled t opts
  | build _ _ klass | buildSynced _ _ klass =>
    match RustlyCore.build x compiled t klass with
    | .ok r => ∃ v, reply = .ok (.instance_ v) ∧ Objects.DenotesInstance h' v r
    | .error stop => reply = .error stop

/-- The first part of the call of a tree. -/
def beginTree (compiled : CompiledSchema) (t : RubyValue) (request : Request) :
    Call (Reply ⊕ ValidationOptions × PreparedInput) := do
  let options ← request.options compiled
  match ← Fallible.attempt (prepareInput t options.inputMode) with
  | .error error => request.reject error
  | .ok preparedInput => return .inr (options, preparedInput)

variable {x} {h h' : Heap} {compiled : CompiledSchema} {request : Request} {t : RubyValue}

theorem begin_unfolds (ht : h.Unfolds request.input t) :
    request.begin h compiled = settled (request.beginTree compiled t) := by
  rw [begin, beginTree]
  cases request.options compiled with
  | error stop => rfl
  | ok options =>
    rw [Bounded.ok_bind, Objects.prepareInput_unfolds ht, Bounded.attempt_settled,
      Fallible.ok_bind]
    cases (Fallible.attempt (prepareInput t options.inputMode) : Call _) with
    | error stop => rfl
    | ok prepared =>
      cases prepared with
      | error error => rfl
      | ok preparedInput => rfl

/-- The call has ended before the validation. -/
def Early (compiled : CompiledSchema) (t : RubyValue) (request : Request) (reply : Call Reply) :
    Prop :=
  request.beginTree compiled t = Sum.inl <$> reply

theorem Early.answers {reply : Call Reply} (hearly : Early compiled t request reply) :
    request.Answers x compiled t reply h' := by
  cases request with
  | validate schema input opts =>
    rw [Answers, RustlyCore.validate]
    cases reply with
    | ok reply =>
      obtain ⟨options, hoptions, hrest⟩ := Fallible.bind_eq_ok.1 hearly
      obtain ⟨prepared, hprepared, hrest⟩ := Fallible.bind_eq_ok.1 hrest
      change callOptions compiled opts = .ok options at hoptions
      rw [hoptions, Fallible.ok_bind, hprepared]
      cases prepared with
      | error error =>
        cases hrest
        rfl
      | ok preparedInput => cases hrest
    | error stop =>
      rcases Fallible.bind_eq_error.1 hearly with hoptions | ⟨options, hoptions, hrest⟩
      · change callOptions compiled opts = .error stop at hoptions
        rw [hoptions]
        rfl
      · change callOptions compiled opts = .ok options at hoptions
        rw [hoptions, Fallible.ok_bind]
        rcases Fallible.bind_eq_error.1 hrest with hprepared | ⟨prepared, hprepared, hrest⟩
        · rw [hprepared]
          rfl
        · cases prepared <;> cases hrest
  | build schema input klass | buildSynced schema input klass =>
    rw [Answers, RustlyCore.build]
    cases reply with
    | ok reply =>
      obtain ⟨options, hoptions, hrest⟩ := Fallible.bind_eq_ok.1 hearly
      obtain ⟨prepared, hprepared, hrest⟩ := Fallible.bind_eq_ok.1 hrest
      cases prepared <;> cases hrest
    | error stop =>
      rcases Fallible.bind_eq_error.1 hearly with hoptions | ⟨options, hoptions, hrest⟩
      · cases hoptions
      · cases hoptions
        rcases Fallible.bind_eq_error.1 hrest with hprepared | ⟨prepared, hprepared, hrest⟩
        · rw [hprepared]
          rfl
        · rw [hprepared]
          cases prepared with
          | error error =>
            cases hrest
            rfl
          | ok preparedInput => cases hrest

/-- The call has prepared its input, and the validation of that came to this result. -/
def Validated (x : Externals) (compiled : CompiledSchema) (t : RubyValue) (request : Request)
    (options : ValidationOptions) (result : ValidationResult) : Prop :=
  ∃ preparedInput, request.beginTree compiled t = .ok (.inr (options, preparedInput)) ∧
    validateNoGvl x compiled.ir preparedInput options = .ok result

variable {options : ValidationOptions} {result : ValidationResult}

/-- The options of a call and what it prepares. -/
theorem beginTree_eq_inr {preparedInput : PreparedInput}
    (hbegin : request.beginTree compiled t = .ok (.inr (options, preparedInput))) :
    request.options compiled = .ok options ∧
      (Fallible.attempt (prepareInput t options.inputMode) : Call _) = .ok (.ok preparedInput) := by
  obtain ⟨options', hoptions, hrest⟩ := Fallible.bind_eq_ok.1 hbegin
  obtain ⟨prepared, hprepared, hrest⟩ := Fallible.bind_eq_ok.1 hrest
  cases prepared with
  | error error => cases request <;> cases hrest
  | ok preparedInput' =>
    cases hrest
    exact ⟨hoptions, hprepared⟩

/-- What the thread sees of the end, and the heap that it leaves. -/
def outcome (h : Heap) : Call (Reply × Heap) → Call Reply × Heap
  | .ok (reply, h') => (.ok reply, h')
  | .error stop => (.error stop, h)

/-- What a build returns has been materialised; objects from before are left as they are. -/
theorem outcome_materialize (h : Heap) (compiled : CompiledSchema) (options : ValidationOptions)
    (klass : String) (result : ValidationResult) :
    (∃ stop, outcome h (materialize x h compiled options klass result) = (.error stop, h)) ∨
      ∃ w v h', (Objects.materializeInstance x klass attrIvarName w compiled.plan options.freeze
          options.storeAttributes).run h = .ok (v, h') ∧
        outcome h (materialize x h compiled options klass result) = (.ok (.instance_ v), h') := by
  rw [materialize]
  split
  · exact .inl ⟨_, rfl⟩
  · split
    · exact .inl ⟨_, rfl⟩
    next w _ =>
      cases hrun : (Objects.materializeInstance x klass attrIvarName w compiled.plan options.freeze
        options.storeAttributes).run h with
      | ok built => exact .inr ⟨w, built.1, built.2, hrun, rfl⟩
      | error stop => cases stop <;> exact .inl ⟨_, rfl⟩

theorem keepsAll_outcome (h : Heap) (compiled : CompiledSchema) (options : ValidationOptions)
    (result : ValidationResult) (request : Request) :
    KeepsAll h (outcome h (request.finish x h compiled options result)).2 := by
  cases request with
  | validate => exact .refl _ h
  | build _ _ klass | buildSynced _ _ klass =>
    rw [finish]
    rcases outcome_materialize (x := x) h compiled options klass result with
      ⟨stop, heq⟩ | ⟨w, v, h', hrun, heq⟩
    · rw [heq]
      exact .refl _ h
    · obtain ⟨r, -, hk, -⟩ := (Objects.materializeInstance_refines klass attrIvarName w
        compiled.plan options.freeze options.storeAttributes h).returns hrun
      rw [heq]
      exact hk

/-- Materialising in memory ends the call as materialising a tree does. -/
theorem materialize_answers (h : Heap) (compiled : CompiledSchema) (options : ValidationOptions)
    (klass : String) (result : ValidationResult) (hissues : result.issues.isEmpty = true)
    {w : OwnedValue} (hw : result.output = some w) :
    let ended := outcome h (materialize x h compiled options klass result)
    match (do
      match ← Fallible.attempt (materializeInstance x klass attrIvarName w compiled.plan
          options.freeze options.storeAttributes) with
      | .ok instance_ => return instance_
      | .error error => raiseValidationError (errorSetFromMaterializeError error) :
        Call RubyValue) with
    | .ok r => ∃ v, ended.1 = .ok (.instance_ v) ∧ Objects.DenotesInstance ended.2 v r
    | .error stop => ended.1 = .error stop := by
  have hrefines := Objects.materializeInstance_refines (x := x) klass attrIvarName w compiled.plan
    options.freeze options.storeAttributes h
  rw [materialize, hissues, hw]
  cases htree : materializeInstance x klass attrIvarName w compiled.plan options.freeze
    options.storeAttributes with
  | ok r =>
    rw [htree] at hrefines
    obtain ⟨v, h', hrun, -, hdenotes⟩ := hrefines
    simp only [Bool.not_true, Bool.false_eq_true, if_false, hrun]
    exact ⟨v, rfl, hdenotes⟩
  | error stop =>
    rw [htree] at hrefines
    change (Objects.materializeInstance x klass attrIvarName w compiled.plan options.freeze
      options.storeAttributes).run h = .error stop at hrefines
    simp only [Bool.not_true, Bool.false_eq_true, if_false, hrefines]
    cases stop <;> rfl

/-- The same options in memory. -/
theorem begin_eq_inr {preparedInput : PreparedInput}
    (hbegin : request.begin h compiled = settled (.ok (.inr (options, preparedInput)))) :
    request.options compiled = .ok options := by
  obtain ⟨options', hoptions, hrest⟩ := Bounded.bind_eq_ok.1 hbegin
  obtain ⟨prepared, -, hrest⟩ := Bounded.bind_eq_ok.1 hrest
  cases prepared with
  | error error => cases request <;> cases Bounded.settled_inj.1 hrest
  | ok preparedInput' =>
    cases Bounded.settled_inj.1 hrest
    exact Bounded.settled_inj.1 hoptions

/-- Before the validation only an answer is returned. -/
theorem begin_eq_inl {reply : Reply}
    (hbegin : request.begin h compiled = settled (.ok (.inl reply))) :
    ∃ answer, reply = .answer answer := by
  obtain ⟨options', -, hrest⟩ := Bounded.bind_eq_ok.1 hbegin
  obtain ⟨prepared, -, hrest⟩ := Bounded.bind_eq_ok.1 hrest
  cases prepared with
  | error error =>
    cases request with
    | validate =>
      cases Bounded.settled_inj.1 hrest
      exact ⟨_, rfl⟩
    | _ => cases Bounded.settled_inj.1 hrest
  | ok preparedInput => cases Bounded.settled_inj.1 hrest

/-- In whatever heap it ends, the call returns what the call of the tree does. -/
theorem Validated.answers (hv : Validated x compiled t request options result) (h : Heap) :
    let ended := outcome h (request.finish x h compiled options result)
    request.Answers x compiled t ended.1 ended.2 := by
  obtain ⟨preparedInput, hbegin, hresult⟩ := hv
  obtain ⟨hoptions, hprepared⟩ := beginTree_eq_inr hbegin
  cases request with
  | validate schema input opts =>
    change callOptions compiled opts = .ok options at hoptions
    intro ended
    rw [Answers, RustlyCore.validate, hoptions, Fallible.ok_bind, hprepared, Fallible.ok_bind]
    simp only [hresult, Fallible.ok_bind]
    rfl
  | build schema input klass | buildSynced schema input klass =>
    cases hoptions
    intro ended
    rw [Answers, RustlyCore.build, hprepared, Fallible.ok_bind]
    simp only [ended, finish, hresult, Fallible.ok_bind]
    cases hissues : result.issues.isEmpty with
    | false =>
      rw [materialize, hissues]
      rfl
    | true =>
      simp only [Bool.not_true, Bool.false_eq_true, if_false]
      cases hw : result.output with
      | none =>
        rw [materialize, hissues, hw]
        rfl
      | some w => exact materialize_answers h compiled compiled.options klass result hissues hw

/-- An instance comes from a build, which the build of the tree follows. -/
theorem Answers.instance_ {v : Value} (ha : request.Answers x compiled t (.ok (.instance_ v)) h) :
    ∃ klass ∈ request.klass, ∃ r, RustlyCore.build x compiled t klass = .ok r ∧
      Objects.DenotesInstance h v r := by
  cases request with
  | validate schema input opts =>
    rw [Answers] at ha
    cases hanswer : RustlyCore.validate x compiled t opts with
    | ok answer =>
      rw [hanswer] at ha
      cases ha
    | error stop =>
      rw [hanswer] at ha
      cases ha
  | build schema input klass | buildSynced schema input klass =>
    refine ⟨klass, rfl, ?_⟩
    rw [Answers] at ha
    cases hbuild : RustlyCore.build x compiled t klass with
    | ok r =>
      rw [hbuild] at ha
      obtain ⟨v', heq, hdenotes⟩ := ha
      cases heq
      exact ⟨r, rfl, hdenotes⟩
    | error stop =>
      rw [hbuild] at ha
      cases ha

end Request
end RustlyCore
