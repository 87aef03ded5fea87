import RustlyCore.Validation.Conversion

/-!
# Prepared text

The conversion copies the bytes of Strings and Symbols and takes them for UTF-8 without a look;
their encoding is not read at all. Here a prepared text is just bytes, and so is a path in an error.
The conversion into text is this one as long as all bytes are valid.
-/

namespace RustlyCore

/-- A value as it lies in the arena. -/
inductive RawValue where
  | null
  | bool (b : Bool)
  | int (i : Int64)
  | float (f : Float)
  | string (s : ByteArray)
  | symbol (s : ByteArray)
  | list (items : List RawValue)
  | dict (entries : List (ByteArray × RawValue))

abbrev RawDict := List (ByteArray × RawValue)

@[induction_eliminator]
theorem RawValue.induct {motive : RawValue → Prop}
    (null : motive .null) (bool : ∀ b, motive (.bool b)) (int : ∀ i, motive (.int i))
    (float : ∀ f, motive (.float f)) (string : ∀ s, motive (.string s))
    (symbol : ∀ s, motive (.symbol s))
    (list : ∀ items, (∀ v ∈ items, motive v) → motive (.list items))
    (dict : ∀ entries : RawDict, (∀ p ∈ entries, motive p.2) → motive (.dict entries))
    (v : RawValue) : motive v :=
  @RawValue.rec motive (fun items => ∀ v ∈ items, motive v)
    (fun entries => ∀ p ∈ entries, motive p.2) (fun p => motive p.2)
    null bool int float string symbol list dict
    (by simp) (fun _ _ h hs => List.forall_mem_cons.2 ⟨h, hs⟩)
    (by simp) (fun _ _ h hs => List.forall_mem_cons.2 ⟨h, hs⟩) (fun _ _ h => h) v

namespace Raw

/-! ## The conversion -/

inductive PathSegment where
  | key (key : ByteArray)
  | index (index : Nat)

def formatPath (path : List PathSegment) : ByteArray :=
  path.foldl (fun out segment => match segment with
    | .key key => (if out.isEmpty then out else out ++ ".".toUTF8) ++ key
    | .index index => out ++ "[".toUTF8 ++ (toString index).toUTF8 ++ "]".toUTF8) .empty

inductive InputError where
  | expectedString (actual : String)
  | unsupportedType (path : ByteArray) (actual : String)
  | invalidHashKey (path : ByteArray) (actual : String)

inductive PreparedInput where
  | owned (value : RawValue)
  | json (source : String)

def unsupported (path : List PathSegment) (value : RubyValue) : InputError :=
  .unsupportedType (formatPath path) value.className

/-- The bytes are copied; that they are valid is left to the callers. -/
def allocStrFromBytes (bytes : ByteArray) : ByteArray := bytes

def copyRubyString : RubyValue → Option ByteArray
  | .string _ bytes => some (allocStrFromBytes bytes)
  | _ => none

/-- `rb_sym2str` has the bytes of the Symbol. -/
def copyRubySymbol : RubyValue → Option ByteArray
  | .symbol bytes => copyRubyString (.string ⟨"String", true⟩ bytes)
  | _ => none

def extractHashKey (path : List PathSegment) (value : RubyValue) : Result InputError ByteArray :=
  match copyRubyString value with
  | some string => return string
  | none =>
    match copyRubySymbol value with
    | some symbol => return symbol
    | none => .fail (.invalidHashKey (formatPath path) value.className)

mutual
def convertRubyValue (path : List PathSegment) : RubyValue → Result InputError RawValue
  | .nil => return .null
  | .bool b => return .bool b
  | .integer i => return .int (← num2ll i)
  | .float f => return .float f
  | .string basic bytes =>
    match copyRubyString (.string basic bytes) with
    | some s => return .string s
    | none => .fail (unsupported path (.string basic bytes))
  | .symbol bytes =>
    match copyRubySymbol (.symbol bytes) with
    | some s => return .symbol s
    | none => .fail (unsupported path (.symbol bytes))
  | .array _ items => return .list (← convertArray path 0 items)
  | .hash _ entries => return .dict (← convertHash path entries)
  | .object basic ivars => .fail (unsupported path (.object basic ivars))

def convertArray (path : List PathSegment) (index : Nat) :
    List RubyValue → Result InputError (List RawValue)
  | [] => return []
  | element :: items => do
    let converted ← convertRubyValue (path ++ [.index index]) element
    let items ← convertArray path (index + 1) items
    return converted :: items

def convertHash (path : List PathSegment) :
    List (RubyValue × RubyValue) → Result InputError RawDict
  | [] => return []
  | (key, value) :: entries => do
    let keyRef ← extractHashKey path key
    let converted ← convertRubyValue (path ++ [.key keyRef]) value
    let entries ← convertHash path entries
    return (keyRef, converted) :: entries
end

def convertOwned (value : RubyValue) : Result InputError PreparedInput :=
  return .owned (← convertRubyValue [] value)

def prepareJson (value : RubyValue) : Result InputError PreparedInput := do
  match ← stringToOwned value with
  | some string => return .json string
  | none => .fail (.expectedString value.className)

def prepareInput (value : RubyValue) (mode : InputMode) : Result InputError PreparedInput :=
  match mode with
  | .json => prepareJson value
  | .ruby => convertOwned value
  | .auto =>
    match value with
    | .string _ _ => prepareJson value
    | _ => convertOwned value

mutual
/-- The strings of a JSON document are valid already. -/
def fromJson : JsonValue → RawValue
  | .null => .null
  | .bool b => .bool b
  | .number num =>
    match num.asI64 with
    | some i => .int i
    | none => .float (num.asF64.getD 0.0)
  | .string s => .string (allocStrFromBytes s.toUTF8)
  | .array items => .list (fromItems items)
  | .object map => .dict (fromEntries map)

def fromItems : List JsonValue → List RawValue
  | [] => []
  | item :: items => fromJson item :: fromItems items

def fromEntries : List (String × JsonValue) → RawDict
  | [] => []
  | (key, value) :: map => (allocStrFromBytes key.toUTF8, fromJson value) :: fromEntries map
end

def PreparedInput.value (x : Externals) : PreparedInput → Option RawValue
  | .owned value => some value
  | .json source => (x.fromStr source).toOption.map fromJson

/-! ## The texts of a value -/

end Raw

/-- A text somewhere in a Ruby value. -/
inductive RubyValue.HasText : RubyValue → ByteArray → Prop where
  | string (basic : RBasic) (bytes : ByteArray) : HasText (.string basic bytes) bytes
  | symbol (bytes : ByteArray) : HasText (.symbol bytes) bytes
  | element {basic : RBasic} {items : List RubyValue} {r : RubyValue} {b : ByteArray}
      (hr : r ∈ items) (h : HasText r b) : HasText (.array basic items) b
  | key {basic : RBasic} {entries : List (RubyValue × RubyValue)} {p : RubyValue × RubyValue}
      {b : ByteArray} (hp : p ∈ entries) (h : HasText p.1 b) : HasText (.hash basic entries) b
  | value {basic : RBasic} {entries : List (RubyValue × RubyValue)} {p : RubyValue × RubyValue}
      {b : ByteArray} (hp : p ∈ entries) (h : HasText p.2 b) : HasText (.hash basic entries) b

/-- A String, a Symbol or a key somewhere in a prepared value. -/
inductive RawValue.HasText : RawValue → ByteArray → Prop where
  | string (s : ByteArray) : HasText (.string s) s
  | symbol (s : ByteArray) : HasText (.symbol s) s
  | item {items : List RawValue} {v : RawValue} {b : ByteArray} (hv : v ∈ items)
      (h : HasText v b) : HasText (.list items) b
  | key {entries : RawDict} {p : ByteArray × RawValue} (hp : p ∈ entries) :
      HasText (.dict entries) p.1
  | value {entries : RawDict} {p : ByteArray × RawValue} {b : ByteArray} (hp : p ∈ entries)
      (h : HasText p.2 b) : HasText (.dict entries) b

namespace Raw

/-- The texts of the one are those of the other. -/
def SameTexts (r : RubyValue) (v : RawValue) : Prop := ∀ b, v.HasText b ↔ r.HasText b

theorem extractHashKey_ok {path : List PathSegment} {key : RubyValue} {keyRef : ByteArray}
    (h : extractHashKey path key = .ok keyRef) (b : ByteArray) : keyRef = b ↔ key.HasText b := by
  cases key with
  | string basic bytes =>
    cases h
    refine ⟨fun heq => heq ▸ .string basic bytes, fun htext => ?_⟩
    cases htext
    rfl
  | symbol bytes =>
    cases h
    refine ⟨fun heq => heq ▸ .symbol bytes, fun htext => ?_⟩
    cases htext
    rfl
  | _ => cases h

theorem convertArray_ok {path : List PathSegment} {index : Nat} {elements : List RubyValue}
    {outs : List RawValue}
    (ih : ∀ r ∈ elements, ∀ path v, convertRubyValue path r = .ok v → SameTexts r v)
    (h : convertArray path index elements = .ok outs) : List.Forall₂ SameTexts elements outs := by
  induction elements generalizing index outs with
  | nil =>
    cases h
    exact .nil
  | cons r elements ih' =>
    obtain ⟨hr, helements⟩ := List.forall_mem_cons.1 ih
    obtain ⟨v, hv, hrest⟩ := Fallible.bind_eq_ok.1 h
    obtain ⟨vs, hvs, hpure⟩ := Fallible.bind_eq_ok.1 hrest
    cases hpure
    exact .cons (hr _ _ hv) (ih' helements hvs)

theorem convertHash_ok {path : List PathSegment} {entries : List (RubyValue × RubyValue)}
    {outs : RawDict}
    (ih : ∀ p ∈ entries, ∀ path v, convertRubyValue path p.2 = .ok v → SameTexts p.2 v)
    (h : convertHash path entries = .ok outs) :
    List.Forall₂ (fun p q => (∀ b, q.1 = b ↔ p.1.HasText b) ∧ SameTexts p.2 q.2) entries outs := by
  induction entries generalizing outs with
  | nil =>
    cases h
    exact .nil
  | cons p entries ih' =>
    obtain ⟨hp, hentries⟩ := List.forall_mem_cons.1 ih
    obtain ⟨keyRef, hkey, hrest⟩ := Fallible.bind_eq_ok.1 h
    obtain ⟨v, hv, hrest⟩ := Fallible.bind_eq_ok.1 hrest
    obtain ⟨vs, hvs, hpure⟩ := Fallible.bind_eq_ok.1 hrest
    cases hpure
    exact .cons ⟨extractHashKey_ok hkey, hp _ _ hv⟩ (ih' hentries hvs)

theorem convertRubyValue_sameTexts {r : RubyValue} {path : List PathSegment} {v : RawValue}
    (h : convertRubyValue path r = .ok v) : SameTexts r v := by
  induction r generalizing path v with
  | nil | bool | float =>
    cases h
    exact fun b => iff_of_false (fun htext => by cases htext) fun htext => by cases htext
  | integer i =>
    obtain ⟨n, -, hpure⟩ := Fallible.bind_eq_ok.1 h
    cases hpure
    exact fun b => iff_of_false (fun htext => by cases htext) fun htext => by cases htext
  | string basic bytes =>
    cases h
    refine fun b => ⟨fun htext => ?_, fun htext => ?_⟩
    · cases htext
      exact .string basic bytes
    · cases htext
      exact .string bytes
  | symbol bytes =>
    cases h
    refine fun b => ⟨fun htext => ?_, fun htext => ?_⟩
    · cases htext
      exact .symbol bytes
    · cases htext
      exact .symbol bytes
  | array basic items ih =>
    obtain ⟨outs, houts, hpure⟩ := Fallible.bind_eq_ok.1 h
    cases hpure
    have hall := convertArray_ok (fun r hr path v => ih r hr) houts
    refine fun b => ⟨fun htext => ?_, fun htext => ?_⟩
    · cases htext with
      | item hv h =>
        obtain ⟨r, hr, hsame⟩ := forall₂_mem_right hall _ hv
        exact .element hr ((hsame b).1 h)
    · cases htext with
      | element hr h =>
        obtain ⟨v, hv, hsame⟩ := forall₂_mem_left hall _ hr
        exact .item hv ((hsame b).2 h)
  | hash basic entries ih =>
    obtain ⟨outs, houts, hpure⟩ := Fallible.bind_eq_ok.1 h
    cases hpure
    have hall := convertHash_ok (fun p hp path v => (ih p hp).2) houts
    refine fun b => ⟨fun htext => ?_, fun htext => ?_⟩
    · cases htext with
      | key hq =>
        obtain ⟨p, hp, hkey, -⟩ := forall₂_mem_right hall _ hq
        exact .key hp ((hkey _).1 rfl)
      | value hq h =>
        obtain ⟨p, hp, -, hsame⟩ := forall₂_mem_right hall _ hq
        exact .value hp ((hsame b).1 h)
    · cases htext with
      | key hp h =>
        obtain ⟨q, hq, hkey, -⟩ := forall₂_mem_left hall _ hp
        rw [← (hkey b).2 h]
        exact .key hq
      | value hp h =>
        obtain ⟨q, hq, -, hsame⟩ := forall₂_mem_left hall _ hp
        exact .value hq ((hsame b).2 h)
  | object => cases h

/-! ## Reading the bytes as text -/

mutual
/-- The value with its text, if all of it is valid. -/
def decode : RawValue → Option OwnedValue
  | .null => return .null
  | .bool b => return .bool b
  | .int i => return .int i
  | .float f => return .float f
  | .string s => return .string (← String.fromUTF8? s)
  | .symbol s => return .symbol (← String.fromUTF8? s)
  | .list items => return .list (← decodeItems items)
  | .dict entries => return .dict (← decodeEntries entries)

def decodeItems : List RawValue → Option (List OwnedValue)
  | [] => return []
  | item :: items => return (← decode item) :: (← decodeItems items)

def decodeEntries : RawDict → Option OwnedDict
  | [] => return []
  | (key, value) :: entries =>
    return (← String.fromUTF8? key, ← decode value) :: (← decodeEntries entries)
end

theorem allocStrFromBytes_ok {bytes : ByteArray} {s : String} :
    (RustlyCore.allocStrFromBytes bytes : Result RustlyCore.InputError String) = .ok s ↔
      String.fromUTF8? bytes = some s := by
  rw [RustlyCore.allocStrFromBytes]
  cases String.fromUTF8? bytes with
  | none => exact iff_of_false (fun h => by cases h) fun h => by cases h
  | some t => simp

theorem extractHashKey_decodes (path : List RustlyCore.PathSegment) (rawPath : List PathSegment)
    {key : RubyValue} {s : String} :
    RustlyCore.extractHashKey path key = .ok s ↔
      ∃ raw, extractHashKey rawPath key = .ok raw ∧ String.fromUTF8? raw = some s := by
  cases key with
  | string basic bytes | symbol bytes =>
    refine allocStrFromBytes_ok.trans ⟨fun h => ⟨bytes, rfl, h⟩, ?_⟩
    intro hdecoded
    obtain ⟨raw, hraw, h⟩ := hdecoded
    cases hraw
    exact h
  | _ =>
    refine iff_of_false (fun h => by cases h) ?_
    intro hdecoded
    obtain ⟨raw, hraw, _⟩ := hdecoded
    cases hraw

/-- A conversion is that into bytes, read as text. -/
def Decodes (r : RubyValue) : Prop :=
  ∀ (path : List RustlyCore.PathSegment) (rawPath : List PathSegment) (v : OwnedValue),
    RustlyCore.convertRubyValue path r = .ok v ↔
      ∃ raw, convertRubyValue rawPath r = .ok raw ∧ decode raw = some v

theorem convertArray_decodes {elements : List RubyValue} (ih : ∀ r ∈ elements, Decodes r)
    (path : List RustlyCore.PathSegment) (rawPath : List PathSegment) (index : Nat)
    (items : List OwnedValue) :
    RustlyCore.convertArray path index elements = .ok items ↔
      ∃ raws, convertArray rawPath index elements = .ok raws ∧ decodeItems raws = some items := by
  induction elements generalizing index items with
  | nil => simp [RustlyCore.convertArray, convertArray, decodeItems]
  | cons r elements ih' =>
    obtain ⟨hr, helements⟩ := List.forall_mem_cons.1 ih
    rw [RustlyCore.convertArray, convertArray]
    simp only [Fallible.bind_eq_ok, Fallible.pure_eq_ok, hr _ (rawPath ++ [.index index]),
      ih' helements]
    refine ⟨?_, ?_⟩
    · intro hdecoded
      obtain ⟨v, ⟨raw, hraw, hv⟩, vs, ⟨raws, hraws, hvs⟩, heq⟩ := hdecoded
      refine ⟨raw :: raws, ⟨raw, hraw, raws, hraws, rfl⟩, ?_⟩
      rw [decodeItems, hv, hvs, ← heq]
      rfl
    · intro hdecoded
      obtain ⟨_, ⟨raw, hraw, raws, hraws, heq⟩, hdecode⟩ := hdecoded
      rw [← heq, decodeItems] at hdecode
      obtain ⟨v, hv, hdecode⟩ := Option.bind_eq_some_iff.1 hdecode
      obtain ⟨vs, hvs, hdecode⟩ := Option.bind_eq_some_iff.1 hdecode
      cases hdecode
      exact ⟨v, ⟨raw, hraw, hv⟩, vs, ⟨raws, hraws, hvs⟩, rfl⟩

theorem convertHash_decodes {entries : List (RubyValue × RubyValue)}
    (ih : ∀ p ∈ entries, Decodes p.2) (path : List RustlyCore.PathSegment)
    (rawPath : List PathSegment) (items : OwnedDict) :
    RustlyCore.convertHash path entries = .ok items ↔
      ∃ raws, convertHash rawPath entries = .ok raws ∧ decodeEntries raws = some items := by
  induction entries generalizing items with
  | nil => simp [RustlyCore.convertHash, convertHash, decodeEntries]
  | cons p entries ih' =>
    obtain ⟨hp, hentries⟩ := List.forall_mem_cons.1 ih
    refine ⟨fun h => ?_, ?_⟩
    · obtain ⟨s, hs, h⟩ := Fallible.bind_eq_ok.1 h
      obtain ⟨v, hv, h⟩ := Fallible.bind_eq_ok.1 h
      obtain ⟨vs, hvs, h⟩ := Fallible.bind_eq_ok.1 h
      cases h
      obtain ⟨key, hkey, hkeytext⟩ := (extractHashKey_decodes path rawPath).1 hs
      obtain ⟨raw, hraw, hvalue⟩ := (hp _ (rawPath ++ [.key key]) v).1 hv
      obtain ⟨raws, hraws, hvalues⟩ := (ih' hentries vs).1 hvs
      refine ⟨(key, raw) :: raws, ?_, ?_⟩
      · rw [convertHash, hkey, Fallible.ok_bind, hraw, Fallible.ok_bind, hraws]
        rfl
      · rw [decodeEntries, hkeytext, hvalue, hvalues]
        rfl
    · intro hdecoded
      obtain ⟨_, h, hdecode⟩ := hdecoded
      obtain ⟨key, hkey, h⟩ := Fallible.bind_eq_ok.1 h
      obtain ⟨raw, hraw, h⟩ := Fallible.bind_eq_ok.1 h
      obtain ⟨raws, hraws, h⟩ := Fallible.bind_eq_ok.1 h
      cases h
      rw [decodeEntries] at hdecode
      obtain ⟨s, hs, hdecode⟩ := Option.bind_eq_some_iff.1 hdecode
      obtain ⟨v, hv, hdecode⟩ := Option.bind_eq_some_iff.1 hdecode
      obtain ⟨vs, hvs, hdecode⟩ := Option.bind_eq_some_iff.1 hdecode
      cases hdecode
      have hkeyref := (extractHashKey_decodes path rawPath).2 ⟨key, hkey, hs⟩
      have hvalue := (hp (path ++ [.key s]) _ v).2 ⟨raw, hraw, hv⟩
      have hvalues := (ih' hentries vs).2 ⟨raws, hraws, hvs⟩
      rw [RustlyCore.convertHash, hkeyref, Fallible.ok_bind, hvalue, Fallible.ok_bind, hvalues]
      rfl

/-- Parts that are decoded below a constructor. -/
theorem decode_constructor {β γ : Type} {parts : β → Prop} {decodeParts : β → Option γ}
    {raw : β → RawValue} {text : γ → OwnedValue}
    (hdecode : ∀ b, decode (raw b) = (decodeParts b).map text) (v : OwnedValue) :
    (∃ c, (∃ b, parts b ∧ decodeParts b = some c) ∧ text c = v) ↔
      ∃ w, (∃ b, parts b ∧ raw b = w) ∧ decode w = some v := by
  refine ⟨?_, ?_⟩
  · intro hdecoded
    obtain ⟨c, ⟨b, hb, hc⟩, heq⟩ := hdecoded
    refine ⟨raw b, ⟨b, hb, rfl⟩, ?_⟩
    rw [hdecode, hc, ← heq]
    rfl
  · intro hdecoded
    obtain ⟨w, ⟨b, hb, hw⟩, hv⟩ := hdecoded
    rw [← hw, hdecode] at hv
    obtain ⟨c, hc, heq⟩ := Option.map_eq_some_iff.1 hv
    exact ⟨c, ⟨b, hb, hc⟩, heq⟩

theorem map_eq_bind {β γ : Type} (m : Option β) (f : β → γ) :
    (do return f (← m)) = m.map f := by
  cases m <;> rfl

theorem convertRubyValue_decodes (r : RubyValue) : Decodes r := by
  intro path rawPath v
  induction r generalizing path rawPath v with
  | nil | bool | float =>
    simp [RustlyCore.convertRubyValue, convertRubyValue, decode]
  | integer i =>
    simp only [RustlyCore.convertRubyValue, convertRubyValue, Fallible.bind_eq_ok,
      Fallible.pure_eq_ok, num2ll_ok]
    simp [decode]
  | string basic bytes | symbol bytes =>
    simp only [RustlyCore.convertRubyValue, convertRubyValue, copyRubySymbol, copyRubyString,
      Fallible.bind_eq_ok, Fallible.pure_eq_ok, allocStrFromBytes_ok]
    simp [allocStrFromBytes, decode, Option.bind_eq_some_iff]
  | array basic items ih =>
    simp only [RustlyCore.convertRubyValue, convertRubyValue, Fallible.bind_eq_ok,
      Fallible.pure_eq_ok, convertArray_decodes ih path rawPath]
    apply decode_constructor
    intro raws
    rw [decode, map_eq_bind]
  | hash basic entries ih =>
    have hvalues : ∀ p ∈ entries, Decodes p.2 := fun p hp => (ih p hp).2
    simp only [RustlyCore.convertRubyValue, convertRubyValue, Fallible.bind_eq_ok,
      Fallible.pure_eq_ok, convertHash_decodes hvalues path rawPath]
    apply decode_constructor
    intro raws
    rw [decode, map_eq_bind]
  | object =>
    refine iff_of_false (fun h => by cases h) ?_
    intro hdecoded
    obtain ⟨raw, hraw, _⟩ := hdecoded
    cases hraw

/-- All text is valid UTF-8. -/
def Wellformed (v : RawValue) : Prop := ∀ b, v.HasText b → b.IsValidUTF8

theorem fromItems_eq_map (items : List JsonValue) : fromItems items = items.map fromJson := by
  induction items with
  | nil => rfl
  | cons item items ih => rw [fromItems, ih, List.map_cons]

theorem fromEntries_eq_map (map : List (String × JsonValue)) :
    fromEntries map = map.map fun entry => (entry.1.toUTF8, fromJson entry.2) := by
  induction map with
  | nil => rfl
  | cons entry map ih => rw [fromEntries, ih, List.map_cons]; rfl

theorem fromJson_wellformed (j : JsonValue) : Wellformed (fromJson j) := by
  intro b htext
  induction j with
  | null | bool => cases htext
  | number num =>
    rw [fromJson] at htext
    split at htext <;> cases htext
  | string s =>
    cases htext
    exact s.isValidUTF8
  | array items ih =>
    rw [fromJson, fromItems_eq_map] at htext
    cases htext with
    | item hv h =>
      obtain ⟨j, hj, rfl⟩ := List.mem_map.1 hv
      exact ih j hj h
  | object map ih =>
    rw [fromJson, fromEntries_eq_map] at htext
    cases htext with
    | key hp =>
      obtain ⟨entry, -, rfl⟩ := List.mem_map.1 hp
      exact entry.1.isValidUTF8
    | value hp h =>
      obtain ⟨entry, hentry, rfl⟩ := List.mem_map.1 hp
      exact ih entry hentry h

/-- A call that reads the input as JSON text. -/
def ReadsJson (input : RubyValue) (mode : InputMode) : Prop :=
  mode = .json ∨ mode = .auto ∧ ∃ basic bytes, input = .string basic bytes

theorem prepareInput_json {input : RubyValue} {mode : InputMode} (h : ReadsJson input mode) :
    prepareInput input mode = prepareJson input := by
  obtain rfl | ⟨rfl, basic, bytes, rfl⟩ := h <;> rfl

theorem prepareInput_ruby {input : RubyValue} {mode : InputMode} (h : ¬ ReadsJson input mode) :
    prepareInput input mode = convertOwned input := by
  cases mode with
  | json => exact absurd (.inl rfl) h
  | ruby => rfl
  | auto =>
    cases input with
    | string basic bytes => exact absurd (.inr ⟨rfl, basic, bytes, rfl⟩) h
    | _ => rfl

theorem prepareJson_ok {input : RubyValue} {prepared : PreparedInput}
    (h : prepareJson input = .ok prepared) : ∃ source, prepared = .json source := by
  obtain ⟨string, -, h⟩ := Fallible.bind_eq_ok.1 h
  cases string with
  | none => cases h
  | some source =>
    cases h
    exact ⟨source, rfl⟩

theorem convertOwned_ok {input : RubyValue} {prepared : PreparedInput}
    (h : convertOwned input = .ok prepared) :
    ∃ value, prepared = .owned value ∧ convertRubyValue [] input = .ok value := by
  obtain ⟨value, hvalue, h⟩ := Fallible.bind_eq_ok.1 h
  cases h
  exact ⟨value, rfl, hvalue⟩

/-! ## The preparation -/

def PreparedInput.decode : PreparedInput → Option RustlyCore.PreparedInput
  | .owned value => return .owned (← Raw.decode value)
  | .json source => return .json source

theorem prepareJson_decodes (input : RubyValue) (prepared : RustlyCore.PreparedInput) :
    RustlyCore.prepareJson input = .ok prepared ↔
      ∃ raw, prepareJson input = .ok raw ∧ raw.decode = some prepared := by
  cases input with
  | string basic bytes =>
    rw [RustlyCore.prepareJson, prepareJson, stringToOwned, stringToOwned]
    cases Text.hasNul bytes with
    | true =>
      refine iff_of_false (fun h => by cases h) ?_
      intro hdecoded
      obtain ⟨raw, h, _⟩ := hdecoded
      cases h
    | false => simp [PreparedInput.decode]
  | _ =>
    refine iff_of_false (fun h => by cases h) ?_
    intro hdecoded
    obtain ⟨raw, h, _⟩ := hdecoded
    cases h

/-- Where the preparation is defined it reads what lies in the arena as text. -/
theorem prepareInput_decodes {input : RubyValue} {mode : InputMode}
    {prepared : RustlyCore.PreparedInput} :
    RustlyCore.prepareInput input mode = .ok prepared ↔
      ∃ raw, prepareInput input mode = .ok raw ∧ raw.decode = some prepared := by
  by_cases hjson : ReadsJson input mode
  · rw [prepareInput_json hjson, ← prepareJson_decodes]
    obtain rfl | ⟨rfl, basic, bytes, rfl⟩ := hjson <;> rfl
  · have htext : RustlyCore.prepareInput input mode = RustlyCore.convertOwned input := by
      cases mode with
      | json => exact absurd (.inl rfl) hjson
      | ruby => rfl
      | auto =>
        cases input with
        | string basic bytes => exact absurd (.inr ⟨rfl, basic, bytes, rfl⟩) hjson
        | _ => rfl
    rw [prepareInput_ruby hjson, htext, RustlyCore.convertOwned, convertOwned]
    simp only [Fallible.bind_eq_ok, Fallible.pure_eq_ok, convertRubyValue_decodes input [] [] _]
    refine ⟨?_, ?_⟩
    · intro hdecoded
      obtain ⟨v, ⟨raw, hraw, hv⟩, heq⟩ := hdecoded
      refine ⟨.owned raw, ⟨raw, hraw, rfl⟩, ?_⟩
      rw [PreparedInput.decode, hv, ← heq]
      rfl
    · intro hdecoded
      obtain ⟨_, ⟨raw, hraw, heq⟩, hdecode⟩ := hdecoded
      cases heq
      obtain ⟨v, hv, hdecode⟩ := Option.bind_eq_some_iff.1 hdecode
      exact ⟨v, ⟨raw, hraw, hv⟩, Option.some.inj hdecode⟩

end Raw

/-- For every input that is prepared, in every mode: all text in the prepared value is valid exactly
if the input was read as JSON or all its Strings, Symbols and keys are. -/
theorem prepared_text_valid_iff (x : Externals) {input : RubyValue} {mode : InputMode}
    {prepared : Raw.PreparedInput} (h : Raw.prepareInput input mode = .ok prepared) :
    (∀ value, prepared.value x = some value → ∀ b, value.HasText b → b.IsValidUTF8) ↔
      (mode = .json ∨ mode = .auto ∧ ∃ basic bytes, input = .string basic bytes) ∨
        ∀ b, input.HasText b → b.IsValidUTF8 := by
  by_cases hjson : Raw.ReadsJson input mode
  · rw [Raw.prepareInput_json hjson] at h
    obtain ⟨source, rfl⟩ := Raw.prepareJson_ok h
    refine iff_of_true (fun value hvalue => ?_) (.inl hjson)
    obtain ⟨j, -, rfl⟩ := Option.map_eq_some_iff.1 hvalue
    exact Raw.fromJson_wellformed j
  · rw [Raw.prepareInput_ruby hjson] at h
    obtain ⟨value, rfl, hconvert⟩ := Raw.convertOwned_ok h
    have hsame := Raw.convertRubyValue_sameTexts hconvert
    refine Iff.trans ?_ (or_iff_right hjson).symm
    refine ⟨fun hvalid b hb => hvalid value rfl b ((hsame b).2 hb), fun hvalid w hw b hb => ?_⟩
    cases hw
    exact hvalid b ((hsame b).1 hb)

/-- One byte that begins no character. -/
def strayByte : ByteArray := ⟨#[0xFF]⟩

/-- A binary String is taken as it is. -/
theorem prepared_text_not_valid :
    Raw.prepareInput (.string ⟨"String", false⟩ strayByte) .ruby =
        .ok (.owned (.string strayByte)) ∧
      (RawValue.string strayByte).HasText strayByte ∧ ¬ strayByte.IsValidUTF8 := by
  refine ⟨rfl, .string strayByte, ?_⟩
  decide +kernel

/-- A String in a Hash. -/
theorem prepared_text_valid_iff_key :
    (∀ value, (Raw.PreparedInput.owned (.dict [("a".toUTF8, .null)])).value (.reading "" .null) =
        some value → ∀ b, value.HasText b → b.IsValidUTF8) ↔
      (InputMode.ruby = .json ∨ InputMode.ruby = .auto ∧ ∃ basic bytes,
        RubyValue.hash ⟨"Hash", false⟩ [(.utf8Str "a", .nil)] = .string basic bytes) ∨
        ∀ b, (RubyValue.hash ⟨"Hash", false⟩ [(.utf8Str "a", .nil)]).HasText b → b.IsValidUTF8 :=
  prepared_text_valid_iff _ rfl

end RustlyCore
