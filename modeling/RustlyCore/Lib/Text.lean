import Mathlib.Data.List.Basic

/-!
# Text functions of the Rust standard library

`str::trim`, `str::eq_ignore_ascii_case` and the two `str::parse` instances, on `String`: a Rust
`str` and a Lean `String` are both valid UTF-8. Below them, the ways from bytes to text.
-/

namespace RustlyCore.Text

/-- The Unicode `White_Space` property. -/
def isWhitespace (c : Char) : Bool :=
  (0x09 ≤ c.toNat && c.toNat ≤ 0x0D) || (0x2000 ≤ c.toNat && c.toNat ≤ 0x200A) ||
    [0x20, 0x85, 0xA0, 0x1680, 0x2028, 0x2029, 0x202F, 0x205F, 0x3000].contains c.toNat

def trim (s : String) : String :=
  .ofList ((s.toList.dropWhile isWhitespace).reverse.dropWhile isWhitespace).reverse

/-- `Char.toLower` changes ASCII letters only. -/
def eqIgnoreAsciiCase (s t : String) : Bool :=
  s.toList.map Char.toLower == t.toList.map Char.toLower

def isAscii (s : String) : Bool := s.toList.all (·.toNat < 0x80)

def startsWith (s start : String) : Bool := start.toList.isPrefixOf s.toList

/-- The value of a decimal digit sequence. -/
def digitsValue (ds : List Char) : Nat := ds.foldl (fun n d => 10 * n + (d.toNat - '0'.toNat)) 0

/-- A sequence of one or more decimal digits. -/
def parseDigits (ds : List Char) : Option Nat :=
  if ds.isEmpty || ds.any (!·.isDigit) then none else some (digitsValue ds)

/-- An optional sign and digits. -/
def parseSigned : List Char → Option Int
  | '-' :: ds => (parseDigits ds).map fun n => -(n : Int)
  | '+' :: ds => (parseDigits ds).map Int.ofNat
  | ds => (parseDigits ds).map Int.ofNat

/-- `str::parse::<i64>`. -/
def parseI64 (s : String) : Option Int64 := do
  let z ← parseSigned s.toList
  if Int64.minValue.toInt ≤ z ∧ z ≤ Int64.maxValue.toInt then some (.ofInt z) else none

/-- The exponent part that may end a decimal number. -/
def parseExponent : List Char → Option Int
  | [] => some 0
  | c :: ds => if c.toLower = 'e' then parseSigned ds else none

/-- `m * 10 ^ e`, correctly rounded. -/
def scientific (m : Nat) (e : Int) : Float := .ofScientific m (e < 0) e.natAbs

/-- Digits with an optional point among them and an optional exponent. -/
def parseNumber (cs : List Char) : Option Float := do
  let (whole, rest) := cs.span Char.isDigit
  let (fraction, rest) := match rest with
    | '.' :: rest => rest.span Char.isDigit
    | rest => ([], rest)
  if whole.isEmpty && fraction.isEmpty then none
  let e ← parseExponent rest
  return scientific (digitsValue (whole ++ fraction)) (e - fraction.length)

def parseInfNan (cs : List Char) : Option Float :=
  match String.ofList (cs.map Char.toLower) with
  | "inf" | "infinity" => some (1.0 / 0.0)
  | "nan" => some (0.0 / 0.0)
  | _ => none

def parseUnsignedF64 (cs : List Char) : Option Float := parseNumber cs <|> parseInfNan cs

/-- `str::parse::<f64>`. -/
def parseF64 (s : String) : Option Float :=
  match s.toList with
  | '-' :: cs => (parseUnsignedF64 cs).map Float.neg
  | '+' :: cs => parseUnsignedF64 cs
  | cs => parseUnsignedF64 cs

/-! ## Bytes -/

def hasNul (bytes : ByteArray) : Bool := bytes.data.toList.contains 0

/-- A C string ends at its first zero byte: `CString::new` refuses text that has one. -/
def containsNul (s : String) : Bool := hasNul s.toUTF8

/-- The ranges of the bytes that complete a sequence with this first byte, `none` if there is no
such sequence. -/
def continuations (first : UInt8) : Option (List (UInt8 × UInt8)) :=
  if first ≤ 0x7F then some []
  else if 0xC2 ≤ first ∧ first ≤ 0xDF then some [(0x80, 0xBF)]
  else if first = 0xE0 then some [(0xA0, 0xBF), (0x80, 0xBF)]
  else if first = 0xED then some [(0x80, 0x9F), (0x80, 0xBF)]
  else if 0xE1 ≤ first ∧ first ≤ 0xEF then some [(0x80, 0xBF), (0x80, 0xBF)]
  else if first = 0xF0 then some [(0x90, 0xBF), (0x80, 0xBF), (0x80, 0xBF)]
  else if 0xF1 ≤ first ∧ first ≤ 0xF3 then some [(0x80, 0xBF), (0x80, 0xBF), (0x80, 0xBF)]
  else if first = 0xF4 then some [(0x80, 0x8F), (0x80, 0xBF), (0x80, 0xBF)]
  else none

/-- How many of the ranges the bytes meet, one byte each. -/
def matched : List (UInt8 × UInt8) → List UInt8 → Nat
  | (low, high) :: ranges, byte :: bytes =>
    if low ≤ byte ∧ byte ≤ high then matched ranges bytes + 1 else 0
  | _, _ => 0

/-- Every maximal part of a sequence that is cut short becomes one replacement character. -/
def replaceInvalid : List UInt8 → String
  | [] => ""
  | first :: bytes =>
    let ranges := (continuations first).getD []
    let width := matched ranges bytes
    let chunk := first :: bytes.take width
    (String.fromUTF8? ⟨chunk.toArray⟩).getD "\uFFFD" ++ replaceInvalid (bytes.drop width)
termination_by bytes => bytes.length
decreasing_by
  simp only [List.length_cons, List.length_drop]
  omega

/-- `String::from_utf8_lossy`. -/
def fromUtf8Lossy (bytes : ByteArray) : String :=
  match String.fromUTF8? bytes with
  | some valid => valid
  | none => replaceInvalid bytes.data.toList

theorem fromUTF8?_toUTF8 (s : String) : String.fromUTF8? s.toUTF8 = some s := by
  rw [String.fromUTF8?]
  exact dif_pos s.isValidUTF8

theorem fromUtf8Lossy_toUTF8 (s : String) : fromUtf8Lossy s.toUTF8 = s := by
  rw [fromUtf8Lossy, fromUTF8?_toUTF8]

theorem toList_loop (bytes : ByteArray) (i : Nat) (r : List UInt8) :
    ByteArray.toList.loop bytes i r = r.reverse ++ bytes.data.toList.drop i := by
  fun_induction ByteArray.toList.loop bytes i r with
  | case1 i r h ih =>
    have hget : bytes.data.toList.drop i = bytes.get! i :: bytes.data.toList.drop (i + 1) := by
      rw [List.drop_eq_getElem_cons (by simpa using h)]
      simp [ByteArray.get!, h]
    rw [ih, hget, List.reverse_cons, List.append_assoc, List.singleton_append]
  | case2 i r h =>
    rw [List.drop_eq_nil_of_le (by simpa using Nat.le_of_not_lt h), List.append_nil]

theorem toList_eq_data_toList (bytes : ByteArray) : bytes.toList = bytes.data.toList := by
  rw [ByteArray.toList, toList_loop]
  rfl

/-- The bytes of a text are those of its characters. -/
theorem toUTF8_data_toList (s : String) :
    s.toUTF8.data.toList = s.toList.flatMap String.utf8EncodeChar := by
  rw [String.toUTF8_eq_toByteArray, ← String.utf8Encode_toList, List.utf8Encode,
    List.toList_data_toByteArray]

theorem fromUTF8?_eq_some {bytes : ByteArray} {s : String} :
    String.fromUTF8? bytes = some s ↔ bytes = s.toUTF8 := by
  constructor
  · intro h
    rw [String.fromUTF8?] at h
    split at h
    · cases h
      rfl
    · cases h
  · rintro rfl
    exact fromUTF8?_toUTF8 s

/-- A text without a replacement character comes from its own bytes only. -/
theorem toUTF8_replaceInvalid (bytes : List UInt8)
    (h : '\uFFFD' ∉ (replaceInvalid bytes).toList) :
    (replaceInvalid bytes).toUTF8.data.toList = bytes := by
  fun_induction replaceInvalid bytes with
  | case1 => rfl
  | case2 first bytes ranges width chunk ih =>
    rw [String.toList_append, List.mem_append, not_or] at h
    obtain ⟨hchunk, hrest⟩ := h
    cases hs : String.fromUTF8? ⟨chunk.toArray⟩ with
    | none =>
      rw [hs] at hchunk
      exact absurd List.mem_cons_self hchunk
    | some s =>
      have hbytes : s.toUTF8.data.toList = chunk := by rw [← fromUTF8?_eq_some.1 hs]
      rw [Option.getD_some, toUTF8_data_toList, String.toList_append, List.flatMap_append,
        ← toUTF8_data_toList, ← toUTF8_data_toList, hbytes, ih hrest, List.cons_append,
        List.take_append_drop]

theorem fromUtf8Lossy_eq_iff {bytes : ByteArray} {s : String} (h : '\uFFFD' ∉ s.toList) :
    fromUtf8Lossy bytes = s ↔ bytes = s.toUTF8 := by
  refine ⟨?_, fun hbytes => hbytes ▸ fromUtf8Lossy_toUTF8 s⟩
  rintro rfl
  rw [fromUtf8Lossy] at h ⊢
  cases hs : String.fromUTF8? bytes with
  | some s => exact fromUTF8?_eq_some.1 hs
  | none =>
    rw [hs] at h
    exact ByteArray.ext (Array.toList_inj.1 (toUTF8_replaceInvalid _ h).symm)

theorem utf8EncodeChar_of_ascii {c : Char} (h : c.toNat < 0x80) :
    String.utf8EncodeChar c = [c.val.toUInt8] := by
  apply String.utf8EncodeChar_eq_singleton
  rw [Char.utf8Size_eq_one_iff, UInt32.le_iff_toNat_le]
  exact Nat.le_of_lt_succ h

/-- The last byte of a longer sequence. -/
theorem high_mem_utf8EncodeChar {c : Char} (h : ¬ c.toNat < 0x80) :
    UInt8.ofNat (c.toNat % 0x40 + 0x80) ∈ String.utf8EncodeChar c := by
  have hv : ¬ c.val.toNat ≤ 0x7f := fun hle => h (Nat.lt_succ_of_le hle)
  rw [String.utf8EncodeChar]
  simp only [hv, if_false]
  split
  · exact List.mem_cons_of_mem _ List.mem_cons_self
  · split
    · exact List.mem_cons_of_mem _ (List.mem_cons_of_mem _ List.mem_cons_self)
    · exact List.mem_cons_of_mem _
        (List.mem_cons_of_mem _ (List.mem_cons_of_mem _ List.mem_cons_self))

theorem isAscii_iff {s : String} : isAscii s = true ↔ ∀ c ∈ s.toList, c.toNat < 0x80 := by
  simp [isAscii]

/-- Text with no high bytes. -/
theorem isAscii_of_bytes {s : String} (h : ∀ b ∈ s.toUTF8.data.toList, b < 0x80) :
    isAscii s = true := by
  rw [isAscii_iff]
  intro c hc
  by_contra hhigh
  have hlt := h _ (by
    rw [toUTF8_data_toList]
    exact List.mem_flatMap.2 ⟨c, hc, high_mem_utf8EncodeChar hhigh⟩)
  rw [UInt8.lt_iff_toNat_lt, UInt8.toNat_ofNat_of_lt'] at hlt
  · exact absurd hlt (by simp)
  · simp only [UInt8.size]
    omega

theorem bytes_of_isAscii {s : String} (h : isAscii s = true) :
    s.toUTF8.data.toList = s.toList.map fun c => c.val.toUInt8 := by
  rw [toUTF8_data_toList, List.map_eq_flatMap, List.flatMap_def, List.flatMap_def,
    List.map_congr_left fun c hc => utf8EncodeChar_of_ascii (isAscii_iff.1 h c hc)]

/-- `str::is_char_boundary` for an offset within the text. -/
def isCharBoundary (s : String) (n : Nat) : Bool := String.Pos.Raw.isValid s ⟨n⟩

theorem isCharBoundary_iff {s : String} {n : Nat} :
    isCharBoundary s n = true ↔ ∃ cut rest, s = cut ++ rest ∧ cut.utf8ByteSize = n := by
  rw [isCharBoundary, String.Pos.Raw.isValid_eq_true_iff, String.Pos.Raw.isValid_iff_exists_append]
  simp [String.Pos.Raw.ext_iff, eq_comm (a := n)]

theorem toUTF8_extract_append (cut rest : String) :
    (cut ++ rest).toUTF8.extract 0 cut.utf8ByteSize = cut.toUTF8 := by
  rw [String.toUTF8_eq_toByteArray, String.toByteArray_append]
  exact ByteArray.extract_append_eq_left rfl

/-- The bytes in front of an offset are a text exactly if the offset is a boundary. -/
theorem fromUTF8?_extract {s cut : String} {n : Nat} (hn : n ≤ s.utf8ByteSize) :
    String.fromUTF8? (s.toUTF8.extract 0 n) = some cut ↔
      ∃ rest, s = cut ++ rest ∧ cut.utf8ByteSize = n := by
  constructor
  · intro h
    have hboundary : isCharBoundary s n = true := by
      rw [String.fromUTF8?] at h
      split at h
      next hvalid =>
        apply String.Pos.Raw.isValid_eq_true_iff.2
        exact String.Pos.Raw.isValid_iff_isValidUTF8_extract_zero.2 ⟨hn, hvalid⟩
      next => cases h
    obtain ⟨cut', rest, rfl, rfl⟩ := isCharBoundary_iff.1 hboundary
    rw [toUTF8_extract_append, fromUTF8?_toUTF8] at h
    cases h
    exact ⟨rest, rfl, rfl⟩
  · rintro ⟨rest, rfl, rfl⟩
    rw [toUTF8_extract_append, fromUTF8?_toUTF8]

example : parseI64 "-9223372036854775808" = some Int64.minValue := by decide
example : parseI64 "9223372036854775808" = none := by decide
example : parseF64 "-1.5e1" = some (-15.0) := by decide +kernel
example : fromUtf8Lossy ⟨#[0x61, 0xE2, 0x82, 0xFF]⟩ = "a\uFFFD\uFFFD" := by decide +kernel

end RustlyCore.Text
