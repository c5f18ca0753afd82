import MosqCluster.Helper.Crypto.HexStr
import MosqCluster.Helper.Json

/-!
# Writing JSON

`Json::BuiltStyledStreamWriter` of `helper/jsoncpp`, with the settings that `JsonDocument::Write`
gives it: no comments, `null` for a null value, and nothing behind the root. The members of an
object have a line each, and so have the elements of an array that is nested or long; any other
array has one line, for which the texts of the elements are collected first. Without an indentation
the lines are not broken.

The text of a number that is no integer is a parameter. A value has no comments, as a document has
none that is built with `Set` and `Append`. What `isMultineArray` counts in an `int` is a natural
number here; `Json.StreamWriter.Counts` are the values for which this is the same.

## Main definitions

* `Json.valueToString` and `Json.valueToQuotedStringN`;
* `Json.StreamWriter`, its state `Json.WriterState`, and `Json.StreamWriter.writeValue`;
* `Json.StreamWriter.Counts`: no `int` overflows on the way;
* `JsonDocument.write`.

## Main results

* `Json.valueToQuotedStringN_eq`: both ways to quote a string come to the same;
* `Json.StreamWriter.writeValue_collect`: what is collected is one text for an element, and nothing
  is written meanwhile.
-/

namespace MosqCluster

namespace Json

/-! ## The texts of values -/

/-- `uintToString`, in front of what the buffer holds. -/
def uintToString (value : Nat) (current : Bytes) : Bytes :=
  let current := UInt8.ofNat (value % 10 + 48) :: current
  if value / 10 = 0 then current else uintToString (value / 10) current

/-- `valueToString` of an integer. -/
def valueToString (value : Int) : Bytes :=
  if value < 0 then 45 :: uintToString (-value).toNat [] else uintToString value.toNat []

/-- `isControlCharacter`. -/
def isControlCharacter (ch : UInt8) : Bool := 0 < ch && ch ≤ 0x1f

/-- `containsControlCharacter0`. -/
def containsControlCharacter0 (str : Bytes) : Bool := str.any fun c => isControlCharacter c || c = 0

/-- The characters that `valueToQuotedStringN` looks for with `strnpbrk`. -/
def escapedCharacters : Bytes := [34, 92, 8, 12, 10, 13, 9]

/-- A character in the switch of `valueToQuotedStringN`. -/
def quoteCharacter (c : UInt8) : Bytes :=
  if c = 34 then bytes "\\\""
  else if c = 92 then bytes "\\\\"
  else if c = 8 then bytes "\\b"
  else if c = 12 then bytes "\\f"
  else if c = 10 then bytes "\\n"
  else if c = 13 then bytes "\\r"
  else if c = 9 then bytes "\\t"
  else if isControlCharacter c || c = 0 then
    bytes "\\u00" ++ [hexDigit (c / 16), hexDigit (c % 16)]
  else [c]

/-- `valueToQuotedStringN`. -/
def valueToQuotedStringN (value : Bytes) : Bytes :=
  if !value.any (· ∈ escapedCharacters) && !containsControlCharacter0 value then
    [34] ++ cString value ++ [34]
  else [34] ++ value.flatMap quoteCharacter ++ [34]

/-- Where no character is escaped, the text of a string is the same either way. -/
theorem valueToQuotedStringN_eq (value : Bytes) :
    valueToQuotedStringN value = [34] ++ value.flatMap quoteCharacter ++ [34] := by
  unfold valueToQuotedStringN
  split
  · next hplain =>
    rw [Bool.and_eq_true, Bool.not_eq_true', Bool.not_eq_true', List.any_eq_false,
      containsControlCharacter0, List.any_eq_false] at hplain
    obtain ⟨hescaped, hcontrol⟩ := hplain
    have hzero : 0 ∉ value := fun h => hcontrol 0 h (by decide)
    have hsame : ∀ c ∈ value, quoteCharacter c = [c] := by
      intro c hc
      have hescaped := hescaped c hc
      have hcontrol := hcontrol c hc
      simp only [escapedCharacters, List.mem_cons, List.not_mem_nil, or_false, decide_eq_true_eq,
        not_or] at hescaped
      simp [quoteCharacter, hescaped, hcontrol]
    rw [cString_of_not_mem hzero, List.flatMap_congr hsame, List.flatMap_singleton']
  · rfl

/-! ## The writer -/

/-- What a `BuiltStyledStreamWriter` is made with, and how it prints a `double`. -/
structure StreamWriter where
  indentation : Bytes
  colonSymbol : Bytes
  realToString : Option Rat → Bytes

/-- `StreamWriterBuilder::newStreamWriter`, of an indentation. -/
def newStreamWriter (indentation : Bytes) (realToString : Option Rat → Bytes) : StreamWriter where
  indentation := indentation
  colonSymbol := if indentation = [] then bytes ":" else bytes " : "
  realToString := realToString

/-- The members of a `BuiltStyledStreamWriter` that change: `sout` is what was written. -/
structure WriterState where
  sout : Bytes := []
  childValues : List Bytes := []
  indentString : Bytes := []
  addChildValues : Bool := false
  indented : Bool := true

/-- `rightMargin_`. -/
def rightMargin : Nat := 74

namespace StreamWriter

/-- `*sout_ << text`. -/
def put (text : Bytes) (s : WriterState) : WriterState := { s with sout := s.sout ++ text }

/-- `pushValue`. -/
def pushValue (value : Bytes) (s : WriterState) : WriterState :=
  if s.addChildValues then { s with childValues := s.childValues ++ [value] } else put value s

/-- `writeIndent`. -/
def writeIndent (w : StreamWriter) (s : WriterState) : WriterState :=
  if w.indentation = [] then s else put (10 :: s.indentString) s

/-- `writeIndent`, unless the line is indented already. -/
def writeIndentOnce (w : StreamWriter) (s : WriterState) : WriterState :=
  if s.indented then s else w.writeIndent s

/-- `writeWithIndent`. -/
def writeWithIndent (w : StreamWriter) (value : Bytes) (s : WriterState) : WriterState :=
  { put value (w.writeIndentOnce s) with indented := false }

/-- `indent`. -/
def indent (w : StreamWriter) (s : WriterState) : WriterState :=
  { s with indentString := s.indentString ++ w.indentation }

/-- `unindent`. -/
def unindent (w : StreamWriter) (s : WriterState) : WriterState :=
  { s with indentString := s.indentString.take (s.indentString.length - w.indentation.length) }

/-- The loop of `writeArrayValue` over `childValues_`, in which there is one text for an element. -/
def writeChildValues (w : StreamWriter) : List Bytes → WriterState → WriterState
  | [], s => s
  | [text], s => w.writeWithIndent text s
  | text :: texts, s => writeChildValues w texts (put (bytes ",") (w.writeWithIndent text s))

/-- The single line of `writeArrayValue`. -/
def writeLine (w : StreamWriter) (s : WriterState) : WriterState :=
  let space := if w.indentation = [] then [] else bytes " "
  put (bytes "[" ++ space ++ List.intercalate (bytes ", ") s.childValues ++ space ++ bytes "]") s

/-- `lineLength` of `isMultineArray`. -/
def lineLength (size : Nat) (childValues : List Bytes) : Nat :=
  childValues.foldl (fun length text => length + text.length) (4 + (size - 1) * 2)

/-- `childValue.isArray() || childValue.isObject()`, of a value that is not empty. -/
def isNested : Value → Bool
  | .array values => !values.isEmpty
  | .object members => !members.isEmpty
  | _ => false

mutual

/-- `writeValue`. -/
def writeValue (w : StreamWriter) : Value → WriterState → WriterState
  | .null, s => pushValue (bytes "null") s
  | .int value, s => pushValue (valueToString value) s
  | .uint value, s => pushValue (valueToString value) s
  | .real value, s => pushValue (w.realToString value) s
  | .string value, s => pushValue (valueToQuotedStringN value) s
  | .bool value, s => pushValue (bytes (if value then "true" else "false")) s
  | .array values, s =>
    -- `writeArrayValue`
    if values.isEmpty then pushValue (bytes "[]") s
    else
      -- `isMultineArray`, where no element has a comment
      let isMultiLine := rightMargin ≤ values.length * 3 || values.any isNested
      let s := { s with childValues := [] }
      let s :=
        if isMultiLine then s
        else
          { collectValues w values { s with addChildValues := true } with addChildValues := false }
      if isMultiLine || rightMargin ≤ lineLength values.length s.childValues then
        let s := w.indent (w.writeWithIndent (bytes "[") s)
        let s :=
          if s.childValues = [] then writeElements w values s
          else w.writeChildValues s.childValues s
        w.writeWithIndent (bytes "]") (w.unindent s)
      else w.writeLine s
  | .object members, s =>
    if members.isEmpty then pushValue (bytes "\x7b\x7d") s
    else
      let s := writeMembers w members (w.indent (w.writeWithIndent (bytes "\x7b") s))
      w.writeWithIndent (bytes "\x7d") (w.unindent s)

/-- The loop of `isMultineArray` over the elements. -/
def collectValues (w : StreamWriter) : List Value → WriterState → WriterState
  | [], s => s
  | value :: values, s => collectValues w values (writeValue w value s)

/-- The loop of `writeArrayValue` over the elements. -/
def writeElements (w : StreamWriter) : List Value → WriterState → WriterState
  | [], s => s
  | value :: values, s =>
    let s := { writeValue w value { w.writeIndentOnce s with indented := true } with
      indented := false }
    if values.isEmpty then s else writeElements w values (put (bytes ",") s)

/-- The loop of `writeValue` over the members of an object. -/
def writeMembers (w : StreamWriter) : List (Bytes × Value) → WriterState → WriterState
  | [], s => s
  | (name, value) :: members, s =>
    let s := put w.colonSymbol (w.writeWithIndent (valueToQuotedStringN name) s)
    let s := writeValue w value s
    if members.isEmpty then s else writeMembers w members (put (bytes ",") s)

end

/-! ## Values of one token -/

/-- The text of a value that is not nested. -/
def flatText (w : StreamWriter) : Value → Bytes
  | .null => bytes "null"
  | .int value => valueToString value
  | .uint value => valueToString value
  | .real value => w.realToString value
  | .string value => valueToQuotedStringN value
  | .bool value => bytes (if value then "true" else "false")
  | .array _ => bytes "[]"
  | .object _ => bytes "\x7b\x7d"

mutual

/-- No `int` of `isMultineArray` overflows: three times the size of an array, and the length of a
line where it is added up. Of an array that is too long for it, `childValues_.reserve` throws. -/
def Counts (w : StreamWriter) : Value → Prop
  | .array values => values.length * 3 < 2 ^ 31 ∧
    (values.length * 3 < rightMargin → values.any isNested = false →
      lineLength values.length (values.map w.flatText) < 2 ^ 31) ∧ CountsElements w values
  | .object members => CountsMembers w members
  | _ => True

def CountsElements (w : StreamWriter) : List Value → Prop
  | [] => True
  | value :: values => Counts w value ∧ CountsElements w values

def CountsMembers (w : StreamWriter) : List (Bytes × Value) → Prop
  | [] => True
  | (_, value) :: members => Counts w value ∧ CountsMembers w members

end

variable {w : StreamWriter} {s : WriterState} {v : Value} {values : List Value}

/-- Such a value is written as one text. -/
theorem writeValue_flat (h : isNested v = false) (s : WriterState) :
    w.writeValue v s = pushValue (w.flatText v) s := by
  cases v with
  | array values =>
    have hempty : values.isEmpty := by simpa [isNested] using h
    rw [writeValue, if_pos hempty, flatText]
  | object members =>
    have hempty : members.isEmpty := by simpa [isNested] using h
    rw [writeValue, if_pos hempty, flatText]
  | _ => rw [writeValue, flatText]

/-- What is collected is one text for an element, and nothing is written meanwhile. -/
theorem writeValue_collect (hflat : ∀ v ∈ values, isNested v = false)
    (hs : s.addChildValues = true) : w.collectValues values s =
      { s with childValues := s.childValues ++ values.map w.flatText } := by
  induction values generalizing s with
  | nil => rw [collectValues, List.map_nil, List.append_nil]
  | cons v values ih =>
    rw [collectValues, writeValue_flat (hflat v List.mem_cons_self), pushValue, if_pos hs,
      ih (s := { s with childValues := s.childValues ++ [w.flatText v] })
        (fun v hv => hflat v (List.mem_cons_of_mem _ hv)) hs,
      List.map_cons, List.append_assoc, List.singleton_append]

/-! ## Documents -/

/-- `BuiltStyledStreamWriter::write`. -/
def write (w : StreamWriter) (root : Value) : Bytes := (w.writeValue root {}).sout

end StreamWriter

end Json

/-- The writer that `Write` makes. -/
def JsonDocument.writer (realToString : Option Rat → Bytes) (pretty : Bool) : Json.StreamWriter :=
  Json.newStreamWriter (if pretty then [9] else []) realToString

/-- `JsonDocument::Write`. -/
def JsonDocument.write (realToString : Option Rat → Bytes) (d : JsonDocument) (pretty : Bool) :
    Bytes :=
  (JsonDocument.writer realToString pretty).write d.root

end MosqCluster
