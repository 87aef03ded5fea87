import RustlyCore.CallOptions
import RustlyCore.Policy

/-!
# Options of a compilation (`Rustly::Core.compile`)

The wrapper makes Symbols of the keys, merges the result into its defaults and compiles natively. So
each option is read from the last entry under its name, be that a String or a Symbol. The defaults
of the wrapper are those of the extension: merging them in changes nothing.
-/

namespace RustlyCore

/-! ## Hashes without a repeated key -/

/-- No two keys are the same. -/
def DistinctHash (entries : List (RubyValue × RubyValue)) : Prop :=
  entries.Pairwise fun p q => p.1.sameKey q.1 = false

theorem DistinctHash.hashAset {entries : List (RubyValue × RubyValue)} (h : DistinctHash entries)
    (key value : RubyValue) : DistinctHash (hashAset entries key value) := by
  induction entries with
  | nil => exact List.pairwise_singleton _ _
  | cons p entries ih =>
    obtain ⟨k, v⟩ := p
    obtain ⟨hhead, hentries⟩ := List.pairwise_cons.1 h
    rw [RustlyCore.hashAset]
    split
    · exact List.pairwise_cons.2 ⟨hhead, hentries⟩
    next hne =>
      refine List.pairwise_cons.2 ⟨?_, ih hentries⟩
      intro q hq
      have hkey : k.sameKey key.freeze = false := by
        rw [Bool.eq_false_iff]
        intro hsame
        have hback := RubyValue.sameKey_symm hsame
        rw [RubyValue.sameKey_freeze] at hback
        exact hne (RubyValue.sameKey_symm hback)
      exact (forall_hashAset (P := fun other => k.sameKey other = false) (Q := fun _ => True)
        (fun q hq => ⟨hhead q hq, trivial⟩) hkey trivial q hq).1

theorem hashLookup_eq_none {basic : RBasic} {entries : List (RubyValue × RubyValue)}
    {key : RubyValue} (h : ∀ p ∈ entries, p.1.sameKey key = false) :
    (RubyValue.hash basic entries).hashLookup key = none := by
  induction entries with
  | nil => rfl
  | cons p entries ih =>
    obtain ⟨hp, hentries⟩ := List.forall_mem_cons.1 h
    rw [RubyValue.hashLookup_cons, if_neg (by rw [hp]; exact Bool.false_ne_true), ih hentries]

namespace Wrapper

/-- What is merged in comes first. -/
theorem hashLookup_merge_distinct (basic : RBasic) {other : List (RubyValue × RubyValue)}
    (hother : DistinctHash other) (entries : List (RubyValue × RubyValue)) (key : RubyValue) :
    (RubyValue.hash basic (merge entries other)).hashLookup key =
      ((RubyValue.hash basic other).hashLookup key).or
        ((RubyValue.hash basic entries).hashLookup key) := by
  induction other generalizing entries with
  | nil => rfl
  | cons p other ih =>
    obtain ⟨k, v⟩ := p
    obtain ⟨hhead, hother⟩ := List.pairwise_cons.1 hother
    rw [merge, ih hother, hashLookup_hashAset, RubyValue.hashLookup_cons]
    by_cases hk : k.sameKey key = true
    · have hnone : (RubyValue.hash basic other).hashLookup key = none := by
        refine hashLookup_eq_none fun q hq => ?_
        rw [Bool.eq_false_iff]
        intro hsame
        have hsame' := RubyValue.sameKey_trans hk (RubyValue.sameKey_symm hsame)
        rw [hhead q hq] at hsame'
        cases hsame'
      rw [if_pos hk, if_pos hk, hnone]
      rfl
    · rw [if_neg hk, if_neg hk]

/-! ## Symbolized keys -/

/-- A String or a Symbol with this name. -/
def names (key : RubyValue) (name : String) : Bool :=
  key.sameKey (.utf8Str name) || key.sameKey (.id2sym name)

/-- The value of the last entry under a key with this name. -/
def lastNamed (name : String) : List (RubyValue × RubyValue) → Option RubyValue
  | [] => none
  | (key, value) :: hash => (lastNamed name hash).or (if names key name then some value else none)

theorem toSym_names {key symKey : RubyValue} (h : toSym key = .ok symKey) (name : String) :
    symKey.sameKey (.id2sym name) = names key name := by
  cases key with
  | string basic bytes =>
    rw [toSym] at h
    split at h
    next s hs =>
      cases h
      have hbytes : (allocStrFromBytes bytes : Result InputError String) = .ok s := by
        rw [allocStrFromBytes, hs]
        rfl
      rw [allocStrFromBytes_ok.1 hbytes]
      exact (Bool.or_false _).symm
    next => cases h
  | _ =>
    cases h
    rfl

theorem symbolizeKeys_distinct {hash acc out : List (RubyValue × RubyValue)}
    (hacc : DistinctHash acc) (h : symbolizeKeys acc hash = .ok out) : DistinctHash out := by
  induction hash generalizing acc with
  | nil =>
    cases h
    exact hacc
  | cons p hash ih =>
    obtain ⟨symKey, -, h⟩ := Fallible.bind_eq_ok.1 h
    exact ih (hacc.hashAset symKey p.2) h

theorem hashLookup_symbolizeKeys (basic : RBasic) {hash acc out : List (RubyValue × RubyValue)}
    (h : symbolizeKeys acc hash = .ok out) (name : String) :
    (RubyValue.hash basic out).hashLookup (.id2sym name) =
      (lastNamed name hash).or ((RubyValue.hash basic acc).hashLookup (.id2sym name)) := by
  induction hash generalizing acc with
  | nil =>
    cases h
    rfl
  | cons p hash ih =>
    obtain ⟨key, value⟩ := p
    obtain ⟨symKey, hsym, h⟩ := Fallible.bind_eq_ok.1 h
    rw [ih h, hashLookup_hashAset, toSym_names hsym, lastNamed]
    cases lastNamed name hash with
    | some found => rfl
    | none => cases names key name <;> rfl

/-! ## Defaults -/

section
variable {symbolized : List (RubyValue × RubyValue)} {name : String}

/-- An option that is not given has the value of the wrapper. -/
theorem optionValue_merge (hd : DistinctHash symbolized) (name : String) :
    optionValue (.hash ⟨"Hash", false⟩ (merge defaultOptions symbolized)) name =
      optionValue (.hash ⟨"Hash", false⟩ symbolized) name ∨
    optionValue (.hash ⟨"Hash", false⟩ symbolized) name = none ∧
      optionValue (.hash ⟨"Hash", false⟩ (merge defaultOptions symbolized)) name =
        optionValue (.hash ⟨"Hash", false⟩ defaultOptions) name := by
  simp only [optionValue, hashLookup_merge_distinct _ hd]
  cases (RubyValue.hash ⟨"Hash", false⟩ symbolized).hashLookup (.id2sym name) with
  | some found => exact .inl rfl
  | none => exact .inr ⟨rfl, rfl⟩

theorem parseFlag_merge (hd : DistinctHash symbolized) {b : Bool}
    (hdefault : optionValue (.hash ⟨"Hash", false⟩ defaultOptions) name = some (.bool b)) :
    parseFlag (.hash ⟨"Hash", false⟩ (merge defaultOptions symbolized)) name b =
      parseFlag (.hash ⟨"Hash", false⟩ symbolized) name b := by
  rw [parseFlag, parseFlag]
  rcases optionValue_merge hd name with hsame | ⟨hnone, hmerge⟩
  · rw [hsame]
  · rw [hnone, hmerge, hdefault]
    rfl

theorem parseSymbol_merge {α : Type} (hd : DistinctHash symbolized) {symbol : String} {a : α}
    {map : String → Except String α}
    (hdefault : optionValue (.hash ⟨"Hash", false⟩ defaultOptions) name = some (.id2sym symbol))
    (hnul : Text.containsNul symbol = false) (hmap : map symbol = .ok a) :
    parseSymbol (.hash ⟨"Hash", false⟩ (merge defaultOptions symbolized)) name a map =
      parseSymbol (.hash ⟨"Hash", false⟩ symbolized) name a map := by
  rcases optionValue_merge hd name with hsame | ⟨hnone, hmerge⟩
  · rw [parseSymbol, parseSymbol, hsame]
  · rw [parseSymbol_id2sym symbol (hmerge.trans hdefault) hnul hmap, parseSymbol, hnone]
    rfl

theorem parseFreeze_merge (hd : DistinctHash symbolized) :
    parseFreeze (.hash ⟨"Hash", false⟩ (merge defaultOptions symbolized)) =
      parseFreeze (.hash ⟨"Hash", false⟩ symbolized) := by
  have hdefault : optionValue (.hash ⟨"Hash", false⟩ defaultOptions) "freeze" =
    some (.id2sym "none") := rfl
  have hboolean : (RubyValue.id2sym "none").toBool? = none := rfl
  have hsymbol : (symbolToOwned (.id2sym "none") : Result String (Option String)) =
    .ok (some "none") := symbolToOwned_id2sym (by decide)
  rw [parseFreeze, parseFreeze]
  rcases optionValue_merge hd "freeze" with hsame | ⟨hnone, hmerge⟩
  · rw [hsame]
  · simp only [hnone, hmerge, hdefault, hboolean, hsymbol, Fallible.ok_bind]
    rfl

/-- The extension has the same defaults. -/
theorem parseOptions_merge (hd : DistinctHash symbolized) :
    parseOptions (.hash ⟨"Hash", false⟩ (merge defaultOptions symbolized)) =
      parseOptions (.hash ⟨"Hash", false⟩ symbolized) := by
  have hauto : optionValue (.hash ⟨"Hash", false⟩ defaultOptions) "input_mode" =
    some (.id2sym "auto") := rfl
  have hforbid : optionValue (.hash ⟨"Hash", false⟩ defaultOptions) "extra" =
    some (.id2sym "forbid") := rfl
  have hmode : mapInputMode "auto" = .ok .auto := rfl
  have hextra : mapExtraBehavior "forbid" = .ok .forbid := rfl
  rw [parseOptions, parseOptions, parseFlag_merge hd rfl,
    parseSymbol_merge hd hauto (by decide) hmode, parseSymbol_merge hd hforbid (by decide) hextra,
    parseFreeze_merge hd, parseFlag_merge hd rfl]

end

/-- What the wrapper compiles, for all options: what the extension does under the symbolized ones,
in every outcome. -/
theorem compile_native (x : Externals) (schemaAst : RubyValue)
    (opts : Option (List (RubyValue × RubyValue))) :
    compile x schemaAst opts = (do
      let symbolized ← symbolizeKeys [] (opts.getD [])
      RustlyCore.compile x schemaAst (.hash ⟨"Hash", false⟩ symbolized)) := by
  rw [compile]
  cases hsymbolized : symbolizeKeys [] (opts.getD []) with
  | error stop => rfl
  | ok symbolized =>
    have hd : DistinctHash symbolized := symbolizeKeys_distinct .nil hsymbolized
    rw [Fallible.ok_bind, Fallible.ok_bind, RustlyCore.compile, RustlyCore.compile,
      parseOptions_merge hd]

/-! ## What the options say -/

/-- True stands for deep, false for none. -/
def ReadsFreeze (value : RubyValue) (mode : FreezeMode) : Prop :=
  (∃ b, value = .bool b ∧ mode = if b then .deep else .none) ∨ ReadsSymbol freezeModes value mode

/-- The options that a lookup by name says. -/
structure Says (found : String → Option RubyValue) (o : ValidationOptions) : Prop where
  strict : Said (found "strict") ReadsFlag false o.strict
  inputMode : Said (found "input_mode") (ReadsSymbol inputModes) .auto o.inputMode
  extraBehavior : Said (found "extra") (ReadsSymbol extraPolicies) .forbid o.extraBehavior
  freeze : Said (found "freeze") ReadsFreeze .none o.freeze
  storeAttributes : Said (found "store_attributes") ReadsFlag false o.storeAttributes

theorem parseFreeze_eq_ok {opts : RubyValue} {mode : FreezeMode} :
    parseFreeze opts = .ok mode ↔ Given opts "freeze" ReadsFreeze .none mode := by
  rw [given_iff, parseFreeze]
  cases optionValue opts "freeze" with
  | none =>
    constructor
    · intro h
      cases h
      rfl
    · rintro rfl
      rfl
  | some value =>
    simp only [ReadsFreeze, readsSymbol_iff (ε := String) mapFreezeMode_tabulates]
    cases hboolean : value.toBool? with
    | some b =>
      obtain rfl : value = .bool b := by
        cases value with
        | bool b' => exact congrArg _ (Option.some.inj hboolean)
        | _ => cases hboolean
      constructor
      · intro h
        cases h
        exact .inl ⟨b, rfl, rfl⟩
      · rintro (⟨_, heq, rfl⟩ | ⟨symbol, hsymbol, -⟩)
        · cases heq
          rfl
        · cases hsymbol
    | none =>
      dsimp only
      constructor
      · intro h
        obtain ⟨symbol, hsymbol, h⟩ := Fallible.bind_eq_ok.1 h
        cases symbol with
        | none => cases h
        | some symbol =>
          refine .inr ⟨symbol, hsymbol, ?_⟩
          cases hmap : mapFreezeMode symbol with
          | error message =>
            simp only [hmap] at h
            cases h
          | ok mode' =>
            simp only [hmap] at h
            cases h
            rfl
      · rintro (⟨_, rfl, -⟩ | ⟨symbol, hsymbol, hmode⟩)
        · cases hboolean
        · simp only [hsymbol, Fallible.ok_bind, hmode]
          rfl

theorem parseOptions_eq_ok {basic : RBasic} {entries : List (RubyValue × RubyValue)}
    {o : ValidationOptions} : parseOptions (.hash basic entries) = .ok o ↔
      Says (fun name => (RubyValue.hash basic entries).hashLookup (.id2sym name)) o := by
  constructor
  · intro h
    obtain ⟨strict, hstrict, h⟩ := Fallible.bind_eq_ok.1 h
    obtain ⟨inputMode, hmode, h⟩ := Fallible.bind_eq_ok.1 h
    obtain ⟨extraBehavior, hextra, h⟩ := Fallible.bind_eq_ok.1 h
    obtain ⟨freeze, hfreeze, h⟩ := Fallible.bind_eq_ok.1 h
    obtain ⟨storeAttributes, hstore, h⟩ := Fallible.bind_eq_ok.1 h
    cases h
    exact ⟨parseFlag_eq_ok.1 hstrict, (parseSymbol_eq_ok mapInputMode_tabulates).1 hmode,
      (parseSymbol_eq_ok mapExtraBehavior_tabulates).1 hextra, parseFreeze_eq_ok.1 hfreeze,
      parseFlag_eq_ok.1 hstore⟩
  · intro h
    rw [parseOptions, parseFlag_eq_ok.2 h.strict,
      (parseSymbol_eq_ok mapInputMode_tabulates).2 h.inputMode,
      (parseSymbol_eq_ok mapExtraBehavior_tabulates).2 h.extraBehavior,
      parseFreeze_eq_ok.2 h.freeze, parseFlag_eq_ok.2 h.storeAttributes]
    rfl

/-- A String key that is not UTF-8 makes no Symbol. -/
def Symbolizable (key : RubyValue) : Prop :=
  ∀ basic bytes, key = .string basic bytes → ∃ s, SameKey s key

theorem toSym_returns {key : RubyValue} :
    (∃ symKey, toSym key = .ok symKey) ↔ Symbolizable key := by
  cases key with
  | string basic bytes =>
    rw [toSym]
    cases hs : String.fromUTF8? bytes with
    | some s =>
      have hbytes : (allocStrFromBytes bytes : Result InputError String) = .ok s := by
        rw [allocStrFromBytes, hs]
        rfl
      refine iff_of_true ⟨_, rfl⟩ ?_
      intro _ _ _
      rw [allocStrFromBytes_ok.1 hbytes]
      exact ⟨s, .string basic s⟩
    | none =>
      refine iff_of_false ?_ fun h => ?_
      · rintro ⟨symKey, hsym⟩
        cases hsym
      · obtain ⟨s, hsame⟩ := h basic bytes rfl
        cases hsame with
        | string =>
          have hread : (allocStrFromBytes s.toUTF8 : Result InputError String) = .ok s :=
            allocStrFromBytes_toByteArray s
          rw [allocStrFromBytes, hs] at hread
          cases hread
  | _ =>
    refine iff_of_true ⟨_, rfl⟩ ?_
    intro basic bytes h
    cases h

theorem symbolizeKeys_returns {hash acc : List (RubyValue × RubyValue)} :
    (∃ out, symbolizeKeys acc hash = .ok out) ↔ ∀ p ∈ hash, Symbolizable p.1 := by
  induction hash generalizing acc with
  | nil => exact iff_of_true ⟨acc, rfl⟩ (List.forall_mem_nil _)
  | cons p hash ih =>
    rw [List.forall_mem_cons, ← toSym_returns]
    constructor
    · rintro ⟨out, h⟩
      obtain ⟨symKey, hsym, h⟩ := Fallible.bind_eq_ok.1 h
      exact ⟨⟨symKey, hsym⟩, ih.1 ⟨out, h⟩⟩
    · rintro ⟨⟨symKey, hsym⟩, hhash⟩
      obtain ⟨out, h⟩ := ih.2 hhash
      exact ⟨out, Fallible.bind_eq_ok.2 ⟨symKey, hsym, h⟩⟩

/-- For all options: the wrapper compiles exactly if the schema compiles, all String keys make
Symbols, and each option, as the last entry under its name has it, can be read. Then these are the
options of the schema. -/
theorem compile_reads_last (x : Externals) (schemaAst : RubyValue)
    (opts : Option (List (RubyValue × RubyValue))) (compiled : CompiledSchema) :
    compile x schemaAst opts = .ok compiled ↔
      (∀ p ∈ opts.getD [], Symbolizable p.1) ∧
        Says (fun name => lastNamed name (opts.getD [])) compiled.options ∧
        ∃ compiled', SchemaCompiler.compile x schemaAst = .ok compiled' ∧
          compiled = { compiled' with options := compiled.options } := by
  rw [compile_native]
  have hlookup {symbolized : List (RubyValue × RubyValue)}
      (h : symbolizeKeys [] (opts.getD []) = .ok symbolized) (name : String) :
      (RubyValue.hash ⟨"Hash", false⟩ symbolized).hashLookup (.id2sym name) =
        lastNamed name (opts.getD []) :=
    (hashLookup_symbolizeKeys _ h name).trans (Option.or_none ..)
  constructor
  · intro h
    obtain ⟨symbolized, hsymbolized, h⟩ := Fallible.bind_eq_ok.1 h
    obtain ⟨compiled', options, hcompiled, hoptions, rfl⟩ := compile_ok h
    have hsays := parseOptions_eq_ok.1 hoptions
    simp only [hlookup hsymbolized] at hsays
    exact ⟨symbolizeKeys_returns.1 ⟨symbolized, hsymbolized⟩, hsays, compiled', hcompiled, rfl⟩
  · rintro ⟨hkeys, hsays, compiled', hcompiled, heq⟩
    obtain ⟨symbolized, hsymbolized⟩ := symbolizeKeys_returns.2 hkeys
    have hoptions : parseOptions (.hash ⟨"Hash", false⟩ symbolized) = .ok compiled.options := by
      apply parseOptions_eq_ok.2
      simp only [hlookup hsymbolized]
      exact hsays
    rw [hsymbolized, Fallible.ok_bind, RustlyCore.compile, hoptions, Fallible.attempt_ok,
      Fallible.ok_bind]
    simp only [hcompiled, Fallible.attempt_ok, Fallible.ok_bind]
    exact congrArg _ heq.symm

end Wrapper

end RustlyCore
