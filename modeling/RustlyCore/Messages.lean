import RustlyCore.Build
import RustlyCore.Modes
import RustlyCore.Validation.Reports

/-!
# Error sets as Ruby values (`ruby_helpers.rs`, `lib.rs`)

`messages` of an error set is an Array of Hashes. Everything of the error set can be read back from
it, and it has nothing in it that `JSON.generate` refuses, four levels among it, so that a
`ValidationError` can always be made.
-/

namespace RustlyCore

/-! ## The conversion -/

mutual
def jsonValueToRuby : JsonValue → RubyValue
  | .null => .nil
  | .bool b => .bool b
  | .number num =>
    match num.asI64, num.asU64, num.asF64 with
    | some i, _, _ => .integer i.toInt
    | none, some u, _ => .integer u.toNat
    | none, none, some f => .float f
    | none, none, none => .nil
  | .string s => .utf8Str s
  | .array items => .array ⟨"Array", false⟩ (jsonItemsToRuby items)
  | .object map => .hash ⟨"Hash", false⟩ (jsonEntriesToRuby [] map)

def jsonItemsToRuby : List JsonValue → List RubyValue
  | [] => []
  | item :: items => jsonValueToRuby item :: jsonItemsToRuby items

/-- The loop of `map_to_ruby`. -/
def jsonEntriesToRuby (hash : List (RubyValue × RubyValue)) :
    List (String × JsonValue) → List (RubyValue × RubyValue)
  | [] => hash
  | (key, value) :: map =>
    jsonEntriesToRuby (hashAset hash (.utf8Str key) (jsonValueToRuby value)) map
end

def mapToRuby (map : JsonMap) : RubyValue := .hash ⟨"Hash", false⟩ (jsonEntriesToRuby [] map)

section
variable (x : Externals)

def ensureSymbol (id : String) : Call RubyValue :=
  if Text.containsNul id then .panic else return .id2sym (← intern x id)

def entryMessage (pathSym codeSym metaSym : RubyValue) (entry : ErrorEntry) : Call RubyValue := do
  let hash := hashAset [] pathSym (.utf8Str entry.path)
  let codeValue ← ensureSymbol x entry.code
  let hash := hashAset hash codeSym codeValue
  return .hash ⟨"Hash", false⟩ (hashAset hash metaSym (mapToRuby entry.metaMap))

def entryMessages (pathSym codeSym metaSym : RubyValue) : List ErrorEntry → Call (List RubyValue)
  | [] => return []
  | entry :: entries => do
    let hash ← entryMessage x pathSym codeSym metaSym entry
    return hash :: (← entryMessages pathSym codeSym metaSym entries)

def errorSetMessages (set : ErrorSet) : Call RubyValue := do
  let pathSym ← ensureSymbol x "path"
  let codeSym ← ensureSymbol x "code"
  let metaSym ← ensureSymbol x "meta"
  return .array ⟨"Array", false⟩ (← entryMessages x pathSym codeSym metaSym set.entries)

/-- The message of `ValidationError.new`. -/
def validationErrorMessage (errors : ErrorSet) : Call RubyValue := do
  let messages ← errorSetMessages x errors
  match x.generate messages with
  | .ok text => return text
  | .error exception => .raise exception

end

/-! ## Reading it back -/

namespace RubyValue

def text? : RubyValue → Option String
  | .string _ bytes => String.fromUTF8? bytes
  | _ => none

def symbolText? : RubyValue → Option String
  | .symbol bytes => String.fromUTF8? bytes
  | _ => none

mutual
/-- A document of Strings, numbers, Arrays and Hashes with String keys. -/
def toJson : RubyValue → Option JsonValue
  | .nil => some .null
  | .bool b => some (.bool b)
  | .integer i =>
    if i < 0 then some (.number (.negInt (.ofInt i)))
    else some (.number (.posInt (.ofNat i.toNat)))
  | .float f => some (.number (.float f))
  | .string _ bytes => (String.fromUTF8? bytes).map .string
  | .array _ items => (itemsToJson items).map .array
  | .hash _ entries => (entriesToJson entries).map .object
  | _ => none

def itemsToJson : List RubyValue → Option (List JsonValue)
  | [] => some []
  | item :: items => return (← toJson item) :: (← itemsToJson items)

def entriesToJson : List (RubyValue × RubyValue) → Option JsonMap
  | [] => some []
  | (key, value) :: entries => return (← key.text?, ← toJson value) :: (← entriesToJson entries)
end

def readEntry (hash : RubyValue) : Option ErrorEntry := do
  let path ← (← hash.hashLookup (.id2sym "path")).text?
  let code ← (← hash.hashLookup (.id2sym "code")).symbolText?
  let metaMap ← (← (← hash.hashLookup (.id2sym "meta")).toJson).asObject
  return ⟨path, code, metaMap⟩

def readMessages : RubyValue → Option ErrorSet
  | .array _ items => return ⟨← items.mapM readEntry⟩
  | _ => none

/-- What `JSON.generate` takes with this `max_nesting`: valid text, finite numbers, and at most so
many Arrays and Hashes in one another. -/
inductive Generatable : Nat → RubyValue → Prop
  | nil {levels : Nat} : Generatable levels .nil
  | bool {levels : Nat} (b : Bool) : Generatable levels (.bool b)
  | integer {levels : Nat} (i : Int) : Generatable levels (.integer i)
  | float {levels : Nat} {f : Float} : f.isFinite = true → Generatable levels (.float f)
  | string {levels : Nat} (basic : RBasic) (s : String) :
    Generatable levels (.string basic s.toUTF8)
  | symbol {levels : Nat} (s : String) : Generatable levels (.id2sym s)
  | array {levels : Nat} {basic : RBasic} {items : List RubyValue} :
    (∀ item ∈ items, Generatable levels item) → Generatable (levels + 1) (.array basic items)
  | hash {levels : Nat} {basic : RBasic} {entries : List (RubyValue × RubyValue)} :
    (∀ p ∈ entries, ∃ s, SameKey s p.1) → (∀ p ∈ entries, Generatable levels p.2) →
    Generatable (levels + 1) (.hash basic entries)

end RubyValue

/-- A document as the parser and the errors hold it, of at most so many levels: negative integers
are apart from the others, numbers are finite, and an object has every key once. -/
inductive JsonValue.Normal : Nat → JsonValue → Prop
  | null {levels : Nat} : Normal levels .null
  | bool {levels : Nat} (b : Bool) : Normal levels (.bool b)
  | posInt {levels : Nat} (n : UInt64) : Normal levels (.number (.posInt n))
  | negInt {levels : Nat} {i : Int64} : i < 0 → Normal levels (.number (.negInt i))
  | float {levels : Nat} {f : Float} : f.isFinite = true → Normal levels (.number (.float f))
  | string {levels : Nat} (s : String) : Normal levels (.string s)
  | array {levels : Nat} {items : List JsonValue} : (∀ j ∈ items, Normal levels j) →
    Normal (levels + 1) (.array items)
  | object {levels : Nat} {map : List (String × JsonValue)} : (map.map (·.1)).Nodup →
    (∀ p ∈ map, Normal levels p.2) → Normal (levels + 1) (.object map)

theorem jsonItemsToRuby_eq_map (items : List JsonValue) :
    jsonItemsToRuby items = items.map jsonValueToRuby := by
  induction items with
  | nil => rfl
  | cons item items ih => rw [jsonItemsToRuby, ih, List.map_cons]

/-- What an entry of an object becomes. -/
def rubyEntry (p : String × JsonValue) : RubyValue × RubyValue :=
  ((RubyValue.utf8Str p.1).freeze, jsonValueToRuby p.2)

/-- New keys are appended. -/
theorem jsonEntriesToRuby_new {map : JsonMap} (hnodup : (map.map (·.1)).Nodup)
    {hash : List (RubyValue × RubyValue)}
    (hnew : ∀ p ∈ hash, ∀ q ∈ map, p.1.sameKey (.utf8Str q.1) = false) :
    jsonEntriesToRuby hash map = hash ++ map.map rubyEntry := by
  induction map generalizing hash with
  | nil => simp [jsonEntriesToRuby]
  | cons entry map ih =>
    obtain ⟨key, value⟩ := entry
    obtain ⟨hkey, hnodup⟩ := List.nodup_cons.1 hnodup
    have hfirst := hashAset_new (fun p hp => hnew p hp _ List.mem_cons_self) (jsonValueToRuby value)
    rw [jsonEntriesToRuby, hfirst, ih hnodup, List.append_assoc]
    · rfl
    · intro p hp q hq
      rcases List.mem_append.1 hp with hp | hp
      · exact hnew p hp q (List.mem_cons_of_mem _ hq)
      · cases List.mem_singleton.1 hp
        rw [RubyValue.sameKey_freeze, Bool.eq_false_iff]
        intro hsame
        exact hkey (List.mem_map.2 ⟨q, hq, (RubyValue.sameKey_utf8Str.1 hsame).symm⟩)

theorem jsonEntriesToRuby_eq_map {map : JsonMap} (hnodup : (map.map (·.1)).Nodup) :
    jsonEntriesToRuby [] map = map.map rubyEntry := by
  rw [jsonEntriesToRuby_new hnodup (by simp), List.nil_append]

theorem ofInt_toNat (n : UInt64) : Int64.ofInt n.toNat = n.toInt64 := by
  apply Int64.toBitVec_inj.1
  simp

theorem jsonValueToRuby_posInt (n : UInt64) :
    jsonValueToRuby (.number (.posInt n)) = .integer n.toNat := by
  have hmax : Int64.maxValue.toInt.toNat = 2 ^ 63 - 1 := by decide
  by_cases hn : n.toNat ≤ Int64.maxValue.toInt.toNat
  · have hi : JsonNumber.asI64 (.posInt n) = some n.toInt64 := if_pos hn
    have hvalue : n.toInt64.toInt = n.toNat := by
      rw [← ofInt_toNat]
      apply Int64.toInt_ofInt_of_le <;> omega
    simp only [jsonValueToRuby, hi, hvalue]
  · have hi : JsonNumber.asI64 (.posInt n) = none := if_neg hn
    simp only [jsonValueToRuby, hi, JsonNumber.asU64]

/-! ## Reading back -/

namespace RubyValue

theorem text?_utf8Str (s : String) : (utf8Str s).text? = some s := Text.fromUTF8?_toUTF8 s

theorem text?_freeze (r : RubyValue) : r.freeze.text? = r.text? := by
  cases r <;> rfl

theorem symbolText?_id2sym (s : String) : (id2sym s).symbolText? = some s :=
  Text.fromUTF8?_toUTF8 s

theorem itemsToJson_map {items : List JsonValue}
    (ih : ∀ j ∈ items, (jsonValueToRuby j).toJson = some j) :
    itemsToJson (items.map jsonValueToRuby) = some items := by
  induction items with
  | nil => rfl
  | cons item items ihi =>
    obtain ⟨hitem, hitems⟩ := List.forall_mem_cons.1 ih
    rw [List.map_cons, itemsToJson, hitem, ihi hitems]
    rfl

theorem entriesToJson_map {map : JsonMap}
    (ih : ∀ p ∈ map, (jsonValueToRuby p.2).toJson = some p.2) :
    entriesToJson (map.map rubyEntry) = some map := by
  induction map with
  | nil => rfl
  | cons entry map ihm =>
    obtain ⟨hentry, hmap⟩ := List.forall_mem_cons.1 ih
    rw [List.map_cons, rubyEntry, entriesToJson, text?_freeze, text?_utf8Str, hentry, ihm hmap]
    rfl

end RubyValue

theorem toJson_jsonValueToRuby {levels : Nat} {j : JsonValue} (h : j.Normal levels) :
    (jsonValueToRuby j).toJson = some j := by
  induction h with
  | null | bool => rfl
  | posInt n =>
    rw [jsonValueToRuby_posInt, RubyValue.toJson, if_neg (Int.not_lt.2 (Int.natCast_nonneg _)),
      Int.toNat_natCast, UInt64.ofNat_toNat]
  | @negInt _ i hi =>
    have hneg : i.toInt < 0 := Int64.lt_iff_toInt_lt.1 hi
    change (RubyValue.integer i.toInt).toJson = _
    rw [RubyValue.toJson, if_pos hneg, Int64.ofInt_toInt]
  | float => rfl
  | string s =>
    rw [jsonValueToRuby, RubyValue.utf8Str, RubyValue.toJson, Text.fromUTF8?_toUTF8]
    rfl
  | array _ ih =>
    rw [jsonValueToRuby, jsonItemsToRuby_eq_map, RubyValue.toJson, RubyValue.itemsToJson_map ih]
    rfl
  | object hnodup _ ih =>
    rw [jsonValueToRuby, jsonEntriesToRuby_eq_map hnodup, RubyValue.toJson,
      RubyValue.entriesToJson_map ih]
    rfl

theorem jsonValueToRuby_generatable {levels : Nat} {j : JsonValue} (h : j.Normal levels) :
    (jsonValueToRuby j).Generatable levels := by
  induction h with
  | null => exact .nil
  | bool b => exact .bool b
  | posInt n =>
    rw [jsonValueToRuby_posInt]
    exact .integer _
  | negInt => exact .integer _
  | float hfinite => exact .float hfinite
  | string s => exact .string _ s
  | array _ ih =>
    rw [jsonValueToRuby, jsonItemsToRuby_eq_map]
    exact .array (List.forall_mem_map.2 ih)
  | object hnodup _ ih =>
    rw [jsonValueToRuby, jsonEntriesToRuby_eq_map hnodup]
    refine .hash (List.forall_mem_map.2 fun p _ => ⟨p.1, ?_⟩) (List.forall_mem_map.2 ih)
    exact .string _ p.1

theorem RubyValue.Generatable.mono {m n : Nat} {r : RubyValue} (h : r.Generatable m) (hle : m ≤ n) :
    r.Generatable n := by
  induction h generalizing n with
  | nil => exact .nil
  | bool b => exact .bool b
  | integer i => exact .integer i
  | float hfinite => exact .float hfinite
  | string basic s => exact .string basic s
  | symbol s => exact .symbol s
  | array _ ih =>
    obtain ⟨n, rfl⟩ := Nat.exists_eq_add_of_le' (Nat.one_le_of_lt hle)
    exact .array fun item hitem => ih item hitem (Nat.le_of_succ_le_succ hle)
  | hash hkeys _ ih =>
    obtain ⟨n, rfl⟩ := Nat.exists_eq_add_of_le' (Nat.one_le_of_lt hle)
    exact .hash hkeys fun p hp => ih p hp (Nat.le_of_succ_le_succ hle)

/-! ## `JSON.generate` -/

/-- A character within a text. -/
def generateChar (c : Char) : String :=
  match c.toNat with
  | 8 => "\\b"
  | 9 => "\\t"
  | 10 => "\\n"
  | 12 => "\\f"
  | 13 => "\\r"
  | 34 => "\\\""
  | 92 => "\\\\"
  | code =>
    if 32 ≤ code then c.toString
    else "\\u00" ++ (if code < 16 then "0" else "") ++ .ofList (Nat.toDigits 16 code)

def generateString (bytes : ByteArray) : Except RubyException String :=
  match String.fromUTF8? bytes with
  | some s => return "\"" ++ String.join (s.toList.map generateChar) ++ "\""
  | none => .error (.jsonError "source sequence is illegal/malformed utf-8")

def generateKey : RubyValue → Except RubyException String
  | .string _ bytes | .symbol bytes => generateString bytes
  | key => .error (.jsonError s!"unexpected key of class {key.className}")

mutual
/-- The documented text, with `levels` for `max_nesting`; floats are left to Lean, and other objects
are refused. -/
def generateText (levels : Nat) : RubyValue → Except RubyException String
  | .nil => return "null"
  | .bool b => return toString b
  | .integer i => return toString i
  | .float f =>
    if f.isFinite then return toString f else .error (.jsonError s!"{f} not allowed in JSON")
  | .string _ bytes => generateString bytes
  | .symbol bytes => generateString bytes
  | .array _ items =>
    if levels = 0 then .error (.jsonError "nesting is too deep")
    else return "[" ++ ",".intercalate (← generateItems (levels - 1) items) ++ "]"
  | .hash _ entries =>
    if levels = 0 then .error (.jsonError "nesting is too deep")
    else return "\x7b" ++ ",".intercalate (← generateEntries (levels - 1) entries) ++ "\x7d"
  | .object basic _ => .error (.jsonError s!"unexpected object of class {basic.klass}")

def generateItems (levels : Nat) : List RubyValue → Except RubyException (List String)
  | [] => return []
  | item :: items => return (← generateText levels item) :: (← generateItems levels items)

def generateEntries (levels : Nat) :
    List (RubyValue × RubyValue) → Except RubyException (List String)
  | [] => return []
  | (key, value) :: entries => do
    let keyText ← generateKey key
    let text ← generateText levels value
    return (keyText ++ ":" ++ text) :: (← generateEntries levels entries)
end

theorem generateString_ok (s : String) : ∃ text, generateString s.toUTF8 = .ok text := by
  rw [generateString, Text.fromUTF8?_toUTF8]
  exact ⟨_, rfl⟩

theorem generateItems_ok {levels : Nat} {items : List RubyValue}
    (ih : ∀ r ∈ items, ∃ text, generateText levels r = .ok text) :
    ∃ texts, generateItems levels items = .ok texts := by
  induction items with
  | nil => exact ⟨[], rfl⟩
  | cons item items ihi =>
    obtain ⟨⟨text, htext⟩, hitems⟩ := List.forall_mem_cons.1 ih
    obtain ⟨texts, htexts⟩ := ihi hitems
    refine ⟨text :: texts, ?_⟩
    rw [generateItems, htext, htexts]
    rfl

theorem generateEntries_ok {levels : Nat} {entries : List (RubyValue × RubyValue)}
    (hkeys : ∀ p ∈ entries, ∃ s, SameKey s p.1)
    (ih : ∀ p ∈ entries, ∃ text, generateText levels p.2 = .ok text) :
    ∃ texts, generateEntries levels entries = .ok texts := by
  induction entries with
  | nil => exact ⟨[], rfl⟩
  | cons p entries ihe =>
    obtain ⟨key, value⟩ := p
    obtain ⟨⟨s, hkey⟩, hkeys⟩ := List.forall_mem_cons.1 hkeys
    obtain ⟨⟨text, htext⟩, hentries⟩ := List.forall_mem_cons.1 ih
    obtain ⟨texts, htexts⟩ := ihe hkeys hentries
    obtain ⟨keyText, hkeyText⟩ : ∃ keyText, generateKey key = .ok keyText := by
      cases hkey <;> exact generateString_ok s
    refine ⟨(keyText ++ ":" ++ text) :: texts, ?_⟩
    rw [generateEntries, hkeyText, htext, htexts]
    rfl

/-- There is a text for every value that is not too deep. -/
theorem generateText_ok {levels : Nat} {r : RubyValue} (h : r.Generatable levels) :
    ∃ text, generateText levels r = .ok text := by
  induction h with
  | nil | bool | integer => exact ⟨_, rfl⟩
  | float hfinite =>
    rw [generateText, if_pos hfinite]
    exact ⟨_, rfl⟩
  | string _ s | symbol s => exact generateString_ok s
  | array _ ih =>
    obtain ⟨texts, htexts⟩ := generateItems_ok ih
    rw [generateText, if_neg (Nat.succ_ne_zero _), Nat.add_sub_cancel, htexts]
    exact ⟨_, rfl⟩
  | hash hkeys _ ih =>
    obtain ⟨texts, htexts⟩ := generateEntries_ok hkeys ih
    rw [generateText, if_neg (Nat.succ_ne_zero _), Nat.add_sub_cancel, htexts]
    exact ⟨_, rfl⟩

/-! ## Messages -/

/-- The codes of the entries that the extension makes. -/
def errorCodes : List String :=
  ["type_mismatch", "coerce_failed", "required_missing", "extra_key", "too_small", "too_large",
    "too_short", "too_long", "value_not_in", "format_invalid"]

/-- The meta data is a map of numbers and texts, or of arrays of them. -/
structure ErrorEntry.Normal (entry : ErrorEntry) : Prop where
  code : entry.code ∈ errorCodes
  metaMap : (JsonValue.object entry.metaMap).Normal 2

def ErrorSet.Normal (set : ErrorSet) : Prop := ∀ entry ∈ set.entries, entry.Normal

variable {x : Externals}

/-- The Hash of an entry. -/
def messageHash (entry : ErrorEntry) : RubyValue :=
  .hash ⟨"Hash", false⟩ [(.id2sym "path", .utf8Str entry.path),
    (.id2sym "code", .id2sym entry.code), (.id2sym "meta", mapToRuby entry.metaMap)]

section
variable (hinterns : ∀ s, Text.isAscii s = true → Text.containsNul s = false → x.interns s = true)
include hinterns

theorem ensureSymbol_ok {id : String} (hascii : Text.isAscii id = true)
    (hnul : Text.containsNul id = false) : ensureSymbol x id = .ok (.id2sym id) := by
  have hintern : (intern x id : Call String) = .ok id := if_pos (hinterns id hascii hnul)
  rw [ensureSymbol, if_neg (by rw [hnul]; exact Bool.false_ne_true), hintern]
  rfl

theorem entryMessage_ok {entry : ErrorEntry} (h : entry.Normal) :
    entryMessage x (.id2sym "path") (.id2sym "code") (.id2sym "meta") entry =
      .ok (messageHash entry) := by
  have hcodes : ∀ code ∈ errorCodes,
      Text.isAscii code = true ∧ Text.containsNul code = false := by decide
  obtain ⟨hascii, hnul⟩ := hcodes _ h.code
  rw [entryMessage, ensureSymbol_ok hinterns hascii hnul]
  rfl

theorem entryMessages_ok {entries : List ErrorEntry} (h : ∀ entry ∈ entries, entry.Normal) :
    entryMessages x (.id2sym "path") (.id2sym "code") (.id2sym "meta") entries =
      .ok (entries.map messageHash) := by
  induction entries with
  | nil => rfl
  | cons entry entries ih =>
    obtain ⟨hentry, hentries⟩ := List.forall_mem_cons.1 h
    rw [entryMessages, entryMessage_ok hinterns hentry, Fallible.ok_bind, ih hentries]
    rfl

theorem errorSetMessages_ok {errors : ErrorSet} (h : errors.Normal) :
    errorSetMessages x errors =
      .ok (.array ⟨"Array", false⟩ (errors.entries.map messageHash)) := by
  rw [errorSetMessages, ensureSymbol_ok hinterns (by decide) (by decide), Fallible.ok_bind,
    ensureSymbol_ok hinterns (by decide) (by decide), Fallible.ok_bind,
    ensureSymbol_ok hinterns (by decide) (by decide), Fallible.ok_bind,
    entryMessages_ok hinterns h]
  rfl

end

theorem readEntry_messageHash {entry : ErrorEntry} (h : entry.Normal) :
    (messageHash entry).readEntry = some entry := by
  have hmeta : (mapToRuby entry.metaMap).toJson = some (.object entry.metaMap) :=
    toJson_jsonValueToRuby h.metaMap
  have hpath : (messageHash entry).hashLookup (.id2sym "path") = some (.utf8Str entry.path) := by
    rfl
  have hcode : (messageHash entry).hashLookup (.id2sym "code") = some (.id2sym entry.code) := by
    rfl
  have hmap : (messageHash entry).hashLookup (.id2sym "meta") =
      some (mapToRuby entry.metaMap) := by
    rfl
  rw [RubyValue.readEntry, hpath, hcode, hmap]
  simp [RubyValue.text?_utf8Str, RubyValue.symbolText?_id2sym, hmeta, JsonValue.asObject]

theorem readMessages_ok {entries : List ErrorEntry} (h : ∀ entry ∈ entries, entry.Normal) :
    (entries.map messageHash).mapM RubyValue.readEntry = some entries := by
  induction entries with
  | nil => rfl
  | cons entry entries ih =>
    obtain ⟨hentry, hentries⟩ := List.forall_mem_cons.1 h
    rw [List.map_cons, List.mapM_cons, readEntry_messageHash hentry, ih hentries]
    rfl

theorem messageHash_generatable {entry : ErrorEntry} (h : entry.Normal) :
    (messageHash entry).Generatable 3 := by
  have hmeta : (mapToRuby entry.metaMap).Generatable 2 := jsonValueToRuby_generatable h.metaMap
  refine .hash ?_ ?_
  · simp only [List.forall_mem_cons, List.not_mem_nil, false_implies, implies_true, and_true]
    exact ⟨⟨"path", .symbol _⟩, ⟨"code", .symbol _⟩, "meta", .symbol _⟩
  · simp only [List.forall_mem_cons, List.not_mem_nil, false_implies, implies_true, and_true]
    exact ⟨.string _ _, .symbol _, hmeta⟩

/-- The messages of a normal error set have four levels, and say all of it. -/
theorem errorSetMessages_reads
    (hinterns : ∀ s, Text.isAscii s = true → Text.containsNul s = false → x.interns s = true)
    {errors : ErrorSet} (h : errors.Normal) : ∃ r, errorSetMessages x errors = .ok r ∧
      r.Generatable 4 ∧ r.readMessages = some errors := by
  refine ⟨_, errorSetMessages_ok hinterns h, .array (List.forall_mem_map.2 fun entry hentry =>
    messageHash_generatable (h entry hentry)), ?_⟩
  rw [RubyValue.readMessages, readMessages_ok h]
  rfl

/-! ## The errors of the extension -/

variable {levels : Nat}

theorem JsonValue.ofI64_normal (i : Int64) : (JsonValue.ofI64 i).Normal levels := by
  rw [JsonValue.ofI64, JsonNumber.ofI64]
  split
  next h => exact .negInt h
  next => exact .posInt _

theorem JsonValue.Normal.single {j : JsonValue} (h : j.Normal levels) (key : String) :
    (JsonValue.object [(key, j)]).Normal (levels + 1) :=
  .object (List.nodup_singleton _) (List.forall_mem_singleton.2 h)

theorem boundMeta_normal (key : String) (f : Float) :
    (JsonValue.object (boundMeta key f)).Normal (levels + 1) := by
  rw [boundMeta]
  by_cases hf : f.isFinite = true
  · rw [if_pos hf]
    exact (JsonValue.Normal.float hf).single key
  · rw [if_neg hf]
    exact .object .nil (by simp)

/-- The finding makes a normal entry. -/
structure Finding.Normal (finding : Finding) : Prop where
  code : finding.1 ∈ errorCodes
  metaMap : (JsonValue.object finding.2).Normal 2

section
variable {finding : Finding}

theorem finding_normal {code : String} (hcode : code ∈ errorCodes) {metaMap : JsonMap}
    (h : (JsonValue.object metaMap).Normal 2) : Finding.Normal (code, metaMap) :=
  ⟨hcode, h⟩

theorem typeMismatch_normal (expected : String) :
    Finding.Normal ("type_mismatch", [("expected", .string expected)]) :=
  finding_normal (by decide) ((JsonValue.Normal.string expected).single _)

theorem refusal_normal (strict : Bool) (p : PrimitiveType) (v : OwnedValue) :
    (p.refusal strict v).Normal := by
  have hcoerce : Finding.Normal ("coerce_failed", [("from", .string "str")]) :=
    finding_normal (by decide) ((JsonValue.Normal.string _).single _)
  unfold PrimitiveType.refusal
  split
  · exact hcoerce
  · exact hcoerce
  · exact hcoerce
  · exact typeMismatch_normal _

theorem sizeBreaks_normal {length : Nat} {minSize maxSize : Option Nat}
    (h : SizeBreaks length minSize maxSize finding) : finding.Normal := by
  obtain ⟨min, -, -, rfl⟩ | ⟨max, -, -, rfl⟩ := h
  · exact finding_normal (by decide) ((JsonValue.ofI64_normal _).single _)
  · exact finding_normal (by decide) ((JsonValue.ofI64_normal _).single _)

theorem limit_normal {strict : Bool} {p : PrimitiveType} {v : OwnedValue}
    (h : p.Breaks strict v finding) : finding.Normal := by
  cases p with
  | any | bool | symbol => exact h.elim
  | int c =>
    obtain ⟨i, -, ⟨min, -, -, rfl⟩ | ⟨max, -, -, rfl⟩⟩ := h
    · exact finding_normal (by decide) ((JsonValue.ofI64_normal _).single _)
    · exact finding_normal (by decide) ((JsonValue.ofI64_normal _).single _)
  | float c =>
    obtain ⟨f, -, ⟨min, -, -, rfl⟩ | ⟨max, -, -, rfl⟩⟩ := h
    · exact finding_normal (by decide) (boundMeta_normal _ _)
    · exact finding_normal (by decide) (boundMeta_normal _ _)
  | string c =>
    obtain ⟨s, -, h | ⟨format, -, -, rfl⟩⟩ := h
    · exact sizeBreaks_normal h
    · exact finding_normal (by decide) ((JsonValue.Normal.string _).single _)

theorem Breach.normal {o : ValidationOptions} {e : TypeExpr} {root : Bool} {v : OwnedValue}
    {path : List PathSegment} (h : Breach o e root v path finding) : finding.Normal := by
  cases h with
  | refused => exact refusal_normal _ _ _
  | limit h => exact limit_normal h
  | noVariant =>
    refine finding_normal (by decide) ((JsonValue.Normal.array ?_).single _)
    exact List.forall_mem_map.2 fun variant _ => .string variant
  | noSymbol | noList | noDict | noStruct => exact typeMismatch_normal _
  | listSize h | dictSize h => exact sizeBreaks_normal h
  | missing => exact finding_normal (by decide) (.object .nil (by simp))
  | extra => exact finding_normal (by decide) ((JsonValue.Normal.string _).single _)

end

/-- Whatever a validation reports. -/
theorem errorSetFromIssues_normal {schema : SchemaIr} {input : PreparedInput}
    {o : ValidationOptions} {result : ValidationResult}
    (h : validatePreparedInput x schema input o = some result) :
    (errorSetFromIssues result.issues).Normal := by
  have howned {v : OwnedValue} (h : validateOwned schema v o = some result) :
      (errorSetFromIssues result.issues).Normal := by
    obtain ⟨result', hresult', hissues⟩ := issues_iff_breaches schema o v
    cases hresult'.symm.trans h
    intro entry hentry
    obtain ⟨issue, hissue, rfl⟩ := List.mem_map.1 hentry
    obtain ⟨path, finding, ⟨_, _, _, _, _, hbreach, _⟩, rfl⟩ := (hissues issue).1 hissue
    exact ⟨hbreach.normal.code, hbreach.normal.metaMap⟩
  cases input with
  | owned v => exact howned h
  | json source =>
    rw [validatePreparedInput, validateJson] at h
    split at h
    next json _ => exact howned h
    next =>
      cases h
      have hjson : Finding.Normal ("format_invalid", Validator.single "kind" (.string "json")) :=
        finding_normal (by decide) ((JsonValue.Normal.string _).single _)
      exact List.forall_mem_singleton.2 ⟨hjson.code, hjson.metaMap⟩

theorem mismatchMeta_normal (expected actual : String) :
    (JsonValue.object (mismatchMeta expected actual)).Normal 2 := by
  have hmeta : mismatchMeta expected actual =
      [("actual", .string actual), ("expected", .string expected)] := by
    rfl
  have hkeys : ["actual", "expected"].Nodup := by decide
  rw [hmeta]
  refine .object hkeys ?_
  simp only [List.forall_mem_cons, List.not_mem_nil, false_implies, implies_true, and_true]
  exact ⟨.string _, .string _⟩

theorem coerceMeta_normal (origin value : String) :
    (JsonValue.object (coerceMeta origin value)).Normal 2 := by
  have hmeta : coerceMeta origin value = [("from", .string origin), ("value", .string value)] := by
    rfl
  have hkeys : ["from", "value"].Nodup := by decide
  rw [hmeta]
  refine .object hkeys ?_
  simp only [List.forall_mem_cons, List.not_mem_nil, false_implies, implies_true, and_true]
  exact ⟨.string _, .string _⟩

theorem entry_normal {path code : String} (hcode : code ∈ errorCodes) {metaMap : JsonMap}
    (h : (JsonValue.object metaMap).Normal 2) : ErrorSet.Normal ⟨[⟨path, code, metaMap⟩]⟩ :=
  List.forall_mem_singleton.2 ⟨hcode, h⟩

theorem errorSetFromInputError_normal (error : InputError) :
    (errorSetFromInputError error).Normal := by
  cases error with
  | expectedString => exact entry_normal (by decide) (mismatchMeta_normal _ _)
  | unsupportedType => exact entry_normal (by decide) (mismatchMeta_normal _ _)
  | invalidHashKey => exact entry_normal (by decide) (mismatchMeta_normal _ _)

theorem errorSetFromMaterializeError_normal (error : MaterializeError) :
    (errorSetFromMaterializeError error).Normal := by
  cases error with
  | unsupportedRoot => exact entry_normal (by decide) (mismatchMeta_normal _ _)
  | invalidSymbol => exact entry_normal (by decide) (coerceMeta_normal _ _)
  | invalidKey => exact entry_normal (by decide) (coerceMeta_normal _ _)

end RustlyCore
