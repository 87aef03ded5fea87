import RustlyCore.Validation.Bytes

/-!
# The shared path stack (`validation/input.rs`)

The code shares one path stack between the array loop, which leaves its segment on the stack when an
element fails, and a callback for Hash entries, which pops one segment and reports through an error
slot. `Conversion` models that; a run from the stack `path` ends as `convertRubyValue path` does.
-/

namespace RustlyCore.Raw

namespace Conversion

/-- A call with `&mut Path`. -/
abbrev PathM := StateT (List PathSegment) (Result Empty)

def push (segment : PathSegment) : PathM Unit := modify (· ++ [segment])

def pop : PathM Unit := modify List.dropLast

/-- A call without it. -/
def call {α : Type} (m : Result Empty α) : PathM α := StateT.lift m

structure HashConversionState where
  entries : RawDict
  error : Option InputError

def HashConversionState.conclude (state : HashConversionState) : Except InputError RawValue :=
  match state.error with
  | some err => .error err
  | none => .ok (.dict state.entries)

mutual
def convertRubyValue : RubyValue → PathM (Except InputError RawValue)
  | .nil => return .ok .null
  | .bool b => return .ok (.bool b)
  | .integer i => return .ok (.int (← call (num2ll i)))
  | .float f => return .ok (.float f)
  | .string basic bytes => do
    match copyRubyString (.string basic bytes) with
    | some s => return .ok (.string s)
    | none => return .error (unsupported (← get) (.string basic bytes))
  | .symbol bytes => do
    match copyRubySymbol (.symbol bytes) with
    | some s => return .ok (.symbol s)
    | none => return .error (unsupported (← get) (.symbol bytes))
  | .array _ elements => convertArray 0 [] elements
  | .hash _ entries => do
    HashConversionState.conclude <$> hashForeach entries ⟨[], none⟩
  | .object basic ivars => return .error (unsupported (← get) (.object basic ivars))

def convertArray (index : Nat) (items : List RawValue) :
    List RubyValue → PathM (Except InputError RawValue)
  | [] => return .ok (.list items)
  | element :: elements => do
    push (.index index)
    match ← convertRubyValue element with
    | .error err => return .error err
    | .ok converted =>
      pop
      convertArray (index + 1) (items ++ [converted]) elements

/-- `rb_hash_foreach` with `hash_foreach_convert`, whose `ST_STOP` ends the iteration. -/
def hashForeach : List (RubyValue × RubyValue) → HashConversionState → PathM HashConversionState
  | [], state => return state
  | (key, value) :: entries, state =>
    if state.error.isSome then return state
    else do
      match ← call (Fallible.attempt (extractHashKey (← get) key)) with
      | .error err => return { state with error := some err }
      | .ok keyRef =>
        push (.key keyRef)
        match ← convertRubyValue value with
        | .error err =>
          pop
          return { state with error := some err }
        | .ok converted =>
          pop
          hashForeach entries { state with entries := state.entries ++ [(keyRef, converted)] }
end

/-- A run from the stack `path` ends with this result. A failure may leave segments on the stack. -/
def Follows {α : Type} (path : List PathSegment) (m : PathM (Except InputError α))
    (result : Result InputError α) : Prop :=
  ∃ left, m.run path = (Fallible.attempt result).map (·, path ++ left) ∧
    ∀ a, result = .ok a → left = []

variable {path : List PathSegment} {segment : PathSegment} {α β : Type}

theorem Follows.ok (a : α) : Follows path (pure (.ok a)) (pure a) :=
  ⟨[], by rw [List.append_nil]; rfl, fun _ _ => rfl⟩

theorem Follows.fail (err : InputError) :
    Follows path (pure (.error err)) (.fail err : Result _ α) :=
  ⟨[], by rw [List.append_nil]; rfl, nofun⟩

theorem run_push : (push segment).run path = .ok ((), path ++ [segment]) := rfl

theorem run_pop : pop.run path = .ok ((), path.dropLast) := rfl

/-- A part of an array: its segment is popped if the part converts. -/
theorem Follows.element {m : PathM (Except InputError α)} {result : Result InputError α}
    {k : Except InputError α → PathM (Except InputError β)} {f : α → PathM (Except InputError β)}
    {g : α → Result InputError β} (hm : Follows (path ++ [segment]) m result)
    (herror : ∀ err, k (.error err) = pure (.error err)) (hok : ∀ a, k (.ok a) = do pop; f a)
    (hf : ∀ a, Follows path (f a) (g a)) :
    Follows path (do push segment; k (← m)) (result >>= g) := by
  obtain ⟨left, hrun, hleft⟩ := hm
  simp only [Follows, StateT.run_bind, run_push, Fallible.ok_bind, hrun]
  cases result with
  | ok a =>
    cases hleft a rfl
    obtain ⟨left, hrun', hleft'⟩ := hf a
    refine ⟨left, ?_, hleft'⟩
    rw [List.append_nil]
    change StateT.run (k (.ok a)) _ = _
    rw [hok, StateT.run_bind, run_pop, List.dropLast_concat, Fallible.ok_bind]
    exact hrun'
  | error stop =>
    refine ⟨segment :: left, ?_, nofun⟩
    have hstack : path ++ [segment] ++ left = path ++ segment :: left := by simp
    rw [hstack]
    cases stop with
    | error err =>
      change StateT.run (k (.error err)) _ = _
      rw [herror]
      rfl
    | _ => rfl

/-- A part of a Hash: its segment or, where more was left, the last one is popped in any case. -/
theorem Follows.entry {m : PathM (Except InputError α)} {result : Result InputError α}
    {k : Except InputError α → PathM HashConversionState} {f : α → PathM HashConversionState}
    {g : α → Result InputError RawValue} (entries : RawDict)
    (hm : Follows (path ++ [segment]) m result)
    (herror : ∀ err, k (.error err) = do pop; return ⟨entries, some err⟩)
    (hok : ∀ a, k (.ok a) = do pop; f a)
    (hf : ∀ a, Follows path (HashConversionState.conclude <$> f a) (g a)) :
    Follows path (HashConversionState.conclude <$> do push segment; k (← m)) (result >>= g) := by
  obtain ⟨left, hrun, hleft⟩ := hm
  simp only [Follows, StateT.run_map, StateT.run_bind, run_push, Fallible.ok_bind, hrun]
  cases result with
  | ok a =>
    cases hleft a rfl
    obtain ⟨left, hrun', hleft'⟩ := hf a
    refine ⟨left, ?_, hleft'⟩
    rw [StateT.run_map] at hrun'
    rw [List.append_nil]
    change _ <$> StateT.run (k (.ok a)) _ = _
    rw [hok, StateT.run_bind, run_pop, List.dropLast_concat, Fallible.ok_bind]
    exact hrun'
  | error stop =>
    refine ⟨(segment :: left).dropLast, ?_, nofun⟩
    have hstack : (path ++ [segment] ++ left).dropLast = path ++ (segment :: left).dropLast := by
      rw [List.append_assoc, List.singleton_append, List.dropLast_append_cons]
    rw [← hstack]
    cases stop with
    | error err =>
      change _ <$> StateT.run (k (.error err)) _ = _
      rw [herror]
      rfl
    | _ => rfl

theorem convertArray_follows {elements : List RubyValue}
    (h : ∀ r ∈ elements, ∀ path,
      Follows path (convertRubyValue r) (Raw.convertRubyValue path r))
    (index : Nat) (items : List RawValue) :
    Follows path (convertArray index items elements)
      (do return .list (items ++ (← Raw.convertArray path index elements))) := by
  induction elements generalizing index items with
  | nil =>
    rw [convertArray, Raw.convertArray, pure_bind, List.append_nil]
    exact .ok _
  | cons r elements ih =>
    have hrest := ih fun r hr => h r (List.mem_cons_of_mem _ hr)
    rw [convertArray, Raw.convertArray, bind_assoc]
    refine (h r List.mem_cons_self _).element (fun _ => rfl) (fun _ => rfl) fun v => ?_
    simpa using hrest (index + 1) (items ++ [v])

section
variable {γ : Type} {conclude : γ → Except InputError β} {key : RubyValue}
  {f : Except InputError ByteArray → PathM γ}

/-- The key of an entry is read with the current path, which stays. -/
theorem run_key : StateT.run (conclude <$> do
    f (← call (Fallible.attempt (extractHashKey (← get) key)))) path = (do
      let keyRef ← Fallible.attempt (extractHashKey path key)
      (conclude <$> f keyRef).run path) := by
  simp only [call, StateT.run_map, StateT.run_bind, StateT.run_get, pure_bind, StateT.run_lift,
    bind_assoc, map_bind]

theorem Follows.withKey {keyRef : ByteArray} {result : Result InputError β}
    (hkey : extractHashKey path key = .ok keyRef)
    (hf : Follows path (conclude <$> f (.ok keyRef)) result) :
    Follows path (conclude <$> do
      f (← call (Fallible.attempt (extractHashKey (← get) key)))) result := by
  obtain ⟨left, hrun, hleft⟩ := hf
  refine ⟨left, ?_, hleft⟩
  rw [run_key, hkey]
  exact hrun

end

theorem hashForeach_follows {entries : List (RubyValue × RubyValue)}
    (h : ∀ p ∈ entries, ∀ path,
      Follows path (convertRubyValue p.2) (Raw.convertRubyValue path p.2))
    (converted : RawDict) :
    Follows path (HashConversionState.conclude <$> hashForeach entries ⟨converted, none⟩)
      (do return .dict (converted ++ (← Raw.convertHash path entries))) := by
  induction entries generalizing converted with
  | nil =>
    rw [hashForeach, Raw.convertHash, pure_bind, List.append_nil, map_pure]
    exact .ok _
  | cons p entries ih =>
    obtain ⟨key, value⟩ := p
    have hrest := ih fun p hp => h p (List.mem_cons_of_mem _ hp)
    have hgoes : ¬ (HashConversionState.mk converted none).error.isSome = true := Bool.false_ne_true
    rw [hashForeach, Raw.convertHash, bind_assoc, if_neg hgoes]
    cases hkey : extractHashKey path key with
    | ok keyRef =>
      rw [Fallible.ok_bind, bind_assoc]
      refine .withKey hkey ?_
      refine (h _ List.mem_cons_self _).entry converted
        (f := fun v => hashForeach entries ⟨converted ++ [(keyRef, v)], none⟩) ?_ ?_ ?_
      · intro err
        rfl
      · intro v
        rfl
      · intro v
        simpa using hrest (converted ++ [(keyRef, v)])
    | error stop =>
      refine ⟨[], ?_, fun v h => ?_⟩
      · rw [List.append_nil, run_key, hkey]
        cases stop <;> rfl
      · cases h

/-- A call that fails for no input. -/
theorem Follows.call {m : Result InputError α} {m' : Result Empty α}
    (h : Fallible.attempt m = Except.ok <$> m') (f : α → β) :
    Follows path (do return .ok (f (← Conversion.call m'))) (do return f (← m)) := by
  refine ⟨[], ?_, fun _ _ => rfl⟩
  rw [List.append_nil]
  cases m with
  | ok a =>
    cases m' with
    | ok a' =>
      cases h
      rfl
    | error stop => cases h
  | error stop =>
    cases m' with
    | ok a => cases stop <;> cases h
    | error stop' =>
      cases stop <;> cases stop' <;> cases h
      all_goals rfl

theorem num2ll_attempt (i : Int) : Fallible.attempt (num2ll i : Result InputError Int64) =
    (Except.ok <$> num2ll i : Result Empty _) := by
  rw [num2ll, num2ll]
  split <;> rfl

theorem convertRubyValue_follows (r : RubyValue) (path : List PathSegment) :
    Follows path (convertRubyValue r) (Raw.convertRubyValue path r) := by
  induction r generalizing path with
  | nil | bool | float | string | symbol => exact .ok _
  | integer i =>
    rw [convertRubyValue, Raw.convertRubyValue]
    exact .call (num2ll_attempt i) RawValue.int
  | array basic items ih =>
    rw [convertRubyValue, Raw.convertRubyValue]
    exact convertArray_follows ih 0 []
  | hash basic entries ih =>
    rw [convertRubyValue, Raw.convertRubyValue]
    exact hashForeach_follows (fun p hp => (ih p hp).2) []
  | object basic ivars =>
    rw [convertRubyValue, Raw.convertRubyValue]
    exact .fail _

end Conversion

end RustlyCore.Raw
