import MosqCluster.Helper.JsonSpelling

/-!
# Documents that are written and read

What `JsonDocument::Write` writes is accepted by `JsonDocument::Parse`, which makes the document of
it again, up to the two kinds of integers: the reader takes an integer for an `Int` where that is
large enough, and the writer prints both kinds alike.

The document holds no number that is no integer, its strings are not too long for the reader, its
arrays are not too long for the `int`s of the writer, and it is not nested deeper than the stack
limit.

## Main definitions

* `Json.Value.Writable` and `Json.Value.depth`: the documents that this is about;
* `Json.Value.canonical`: the value that is read.

## Main results

* `Json.StreamWriter.writeValue_spells`: what is written spells the value;
* `Json.StreamWriter.parse_written` and `JsonDocument.parse_written`: what is written is read back.
-/

namespace MosqCluster

namespace Json

/-! ## Values -/

mutual

/-- How many values there are inside each other. -/
def Value.depth : Value → Nat
  | .array values => depthElements values + 1
  | .object members => depthMembers members + 1
  | _ => 1

def depthElements : List Value → Nat
  | [] => 0
  | value :: values => max value.depth (depthElements values)

def depthMembers : List (Bytes × Value) → Nat
  | [] => 0
  | (_, value) :: members => max value.depth (depthMembers members)

end

mutual

/-- The value that is read where a value was written. -/
def Value.canonical : Value → Value
  | .int value => .ofInteger value
  | .uint value => .ofInteger value
  | .array values => .array (canonicalElements values)
  | .object members => .object (canonicalMembers members)
  | .null => .null
  | .real value => .real value
  | .string value => .string value
  | .bool value => .bool value

def canonicalElements : List Value → List Value
  | [] => []
  | value :: values => value.canonical :: canonicalElements values

def canonicalMembers : List (Bytes × Value) → List (Bytes × Value)
  | [] => []
  | (name, value) :: members => (name, value.canonical) :: canonicalMembers members

end

mutual

/-- A value that is read as it was written: its numbers are integers of 64 bits, its strings are not
too long for `duplicateAndPrefixStringValue`, and its members are in the order of their names, of
which every byte counts. -/
def Value.Writable : Value → Prop
  | .int value => -2 ^ 63 ≤ value ∧ value < 2 ^ 63
  | .uint value => value < 2 ^ 64
  | .real _ => False
  | .string value => value.length ≤ 2 ^ 31 - 1 - 4 - 1
  | .array values => WritableElements values
  | .object members => (members.map Prod.fst).Pairwise (· < ·) ∧ WritableMembers members
  | _ => True

def WritableElements : List Value → Prop
  | [] => True
  | value :: values => value.Writable ∧ WritableElements values

def WritableMembers : List (Bytes × Value) → Prop
  | [] => True
  | (name, value) :: members => name.length < 2 ^ 30 ∧ value.Writable ∧ WritableMembers members

end

theorem map_fst_canonicalMembers (members : List (Bytes × Value)) :
    (canonicalMembers members).map Prod.fst = members.map Prod.fst := by
  induction members with
  | nil => rfl
  | cons member members ih =>
    obtain ⟨name, value⟩ := member
    rw [canonicalMembers, List.map_cons, List.map_cons, ih]

theorem canonicalElements_eq (values : List Value) :
    canonicalElements values = values.map Value.canonical := by
  induction values with
  | nil => rfl
  | cons value values ih => rw [canonicalElements, List.map_cons, ih]

namespace StreamWriter

/-! ## Steps of the writer -/

/-- A writer whose indentation is white space, and whose colon may stand in it. -/
structure IsPlain (w : StreamWriter) : Prop where
  indentation : IsBlank w.indentation
  colon : ∃ before after, IsBlank before ∧ IsBlank after ∧ w.colonSymbol = before ++ 58 :: after

/-- A text is written, and the line goes on as deep as before. -/
structure Appends (s s' : WriterState) (text : Bytes) : Prop where
  sout : s'.sout = s.sout ++ text
  indentString : s'.indentString = s.indentString
  addChildValues : s'.addChildValues = s.addChildValues

/-- The state between two values that are written: nothing is collected, and the indentation is
white space. -/
structure Writing (s : WriterState) : Prop where
  addChildValues : s.addChildValues = false
  indentString : IsBlank s.indentString

variable {w : StreamWriter} {s s' s'' : WriterState} {text text' : Bytes}

theorem Appends.trans (h : Appends s s' text) (h' : Appends s' s'' text') :
    Appends s s'' (text ++ text') where
  sout := by rw [h'.sout, h.sout, List.append_assoc]
  indentString := h'.indentString.trans h.indentString
  addChildValues := h'.addChildValues.trans h.addChildValues

theorem Appends.writing (h : Appends s s' text) (hs : Writing s) : Writing s' where
  addChildValues := h.addChildValues.trans hs.addChildValues
  indentString := h.indentString ▸ hs.indentString

theorem appends_put (text : Bytes) (s : WriterState) : Appends s (put text s) text :=
  ⟨rfl, rfl, rfl⟩

theorem appends_pushValue (hs : Writing s) (text : Bytes) :
    Appends s (pushValue text s) text := by
  rw [pushValue, hs.addChildValues, if_neg Bool.false_ne_true]
  exact appends_put text s

/-- A line is broken with white space, or not at all. -/
theorem appends_writeIndentOnce (hs : Writing s) :
    ∃ b, IsBlank b ∧ Appends s (w.writeIndentOnce s) b := by
  unfold writeIndentOnce writeIndent
  split
  · exact ⟨[], .nil, (List.append_nil _).symm, rfl, rfl⟩
  split
  · exact ⟨[], .nil, (List.append_nil _).symm, rfl, rfl⟩
  · refine ⟨10 :: s.indentString, fun c hc => ?_, appends_put _ s⟩
    rcases List.mem_cons.mp hc with rfl | hc
    · exact .inr (.inr (.inr rfl))
    · exact hs.indentString c hc

theorem appends_writeWithIndent (hs : Writing s) (text : Bytes) :
    ∃ b, IsBlank b ∧ Appends s (w.writeWithIndent text s) (b ++ text) := by
  obtain ⟨b, hb, hindent⟩ := appends_writeIndentOnce (w := w) hs
  have hput := hindent.trans (appends_put text _)
  exact ⟨b, hb, hput.sout, hput.indentString, hput.addChildValues⟩

/-- Between brackets, lines begin one level deeper. -/
theorem writing_indent (hw : w.IsPlain) (hs : Writing s) (begins : Bytes) :
    Writing (w.indent (w.writeWithIndent begins s)) := by
  obtain ⟨b, -, happends⟩ := appends_writeWithIndent (w := w) hs begins
  have hwriting := happends.writing hs
  exact ⟨hwriting.addChildValues, hwriting.indentString.append hw.indentation⟩

/-- A bracket leaves the texts that were collected as they are. -/
theorem childValues_indent (w : StreamWriter) (begins : Bytes) (s : WriterState) :
    (w.indent (w.writeWithIndent begins s)).childValues = s.childValues := by
  unfold indent writeWithIndent writeIndentOnce writeIndent put
  split_ifs <;> rfl

/-- What stands between brackets, which may begin a line each. -/
theorem appends_block (hs : Writing s) (begins ends : Bytes)
    (hbody : Appends (w.indent (w.writeWithIndent begins s)) s' text) :
    ∃ b b', IsBlank b ∧ IsBlank b' ∧ Appends s (w.writeWithIndent ends (w.unindent s'))
      (b ++ (begins ++ (text ++ (b' ++ ends)))) := by
  obtain ⟨b, hb, hbegins⟩ := appends_writeWithIndent (w := w) hs begins
  -- `unindent` takes off what `indent` has put on.
  have hunindent : Appends s (w.unindent s') (b ++ begins ++ text) := by
    refine ⟨?_, ?_, ?_⟩
    · rw [← List.append_assoc, ← hbegins.sout]
      exact hbody.sout
    · have hindent : s'.indentString = s.indentString ++ w.indentation := by
        rw [hbody.indentString, ← hbegins.indentString]
        rfl
      change s'.indentString.take (s'.indentString.length - w.indentation.length) = _
      rw [hindent, List.length_append, Nat.add_sub_cancel, List.take_left]
    · exact hbody.addChildValues.trans hbegins.addChildValues
  obtain ⟨b', hb', hends⟩ := appends_writeWithIndent (w := w) (hunindent.writing hs) ends
  refine ⟨b, b', hb, hb', ?_⟩
  simpa only [List.append_assoc] using hunindent.trans hends

/-! ## Values of one token -/

variable (toDouble : Bytes → Option (Option Rat)) {v : Value} {values : List Value}

/-- It spells the value. -/
theorem flatText_spells (w : StreamWriter) (hv : v.Writable) (h : isNested v = false) :
    Spells toDouble v.depth (w.flatText v) v.canonical := by
  cases v with
  | null => simpa [flatText, Value.depth, Value.canonical] using Spells.null
  | int value =>
    simp only [Value.Writable] at hv
    simpa [flatText, Value.depth, Value.canonical] using Spells.int (by omega) (by omega)
  | uint value =>
    simp only [Value.Writable] at hv
    simpa [flatText, Value.depth, Value.canonical] using Spells.int (by omega) (by omega)
  | real value => exact hv.elim
  | string value => simpa [flatText, Value.depth, Value.canonical] using Spells.string hv
  | bool value => simpa [flatText, Value.depth, Value.canonical] using Spells.bool value
  | array values =>
    obtain rfl : values = [] := by simpa [isNested] using h
    simpa [flatText, Value.depth, Value.canonical, depthElements, canonicalElements]
      using Spells.array_nil
  | object members =>
    obtain rfl : members = [] := by simpa [isNested] using h
    simpa [flatText, Value.depth, Value.canonical, depthMembers, canonicalMembers]
      using Spells.object_nil

/-- The elements that were collected, with a line each. -/
theorem writeChildValues_spells (hs : Writing s) (hne : values ≠ [])
    (hflat : ∀ v ∈ values, isNested v = false) (hvalues : WritableElements values) :
    ∃ text, Appends s (w.writeChildValues (values.map w.flatText) s) text ∧
      ∀ b, IsBlank b → SpellsElements toDouble (depthElements values) (text ++ (b ++ [93]))
        (canonicalElements values) := by
  induction values generalizing s with
  | nil => exact absurd rfl hne
  | cons v values ih =>
    obtain ⟨hv, hvalues⟩ := hvalues
    obtain ⟨b₀, hb₀, hfirst⟩ := appends_writeWithIndent (w := w) hs (w.flatText v)
    have hspells := ((flatText_spells toDouble w hv (hflat v List.mem_cons_self)).blank_append
      hb₀).mono (Nat.le_max_left v.depth (depthElements values))
    cases values with
    | nil =>
      refine ⟨_, hfirst, fun b hb => ?_⟩
      exact .last hspells hb
    | cons v' values =>
      have hcomma := hfirst.trans (appends_put (bytes ",") _)
      obtain ⟨text, hrest, hspells'⟩ := ih (hcomma.writing hs) (List.cons_ne_nil _ _)
        (fun v hv => hflat v (List.mem_cons_of_mem _ hv)) hvalues
      refine ⟨_, hcomma.trans hrest, fun b hb => ?_⟩
      have hcons := SpellsElements.cons hspells .nil
        ((hspells' b hb).mono (Nat.le_max_right v.depth _))
      rw [List.append_assoc, List.append_assoc]
      exact hcons

/-- The elements that were collected, on one line. -/
theorem intercalate_spells (w : StreamWriter) (hne : values ≠ [])
    (hflat : ∀ v ∈ values, isNested v = false) (hvalues : WritableElements values) {b : Bytes}
    (hb : IsBlank b) :
    SpellsElements toDouble (depthElements values)
      (List.intercalate (bytes ", ") (values.map w.flatText) ++ (b ++ [93]))
      (canonicalElements values) := by
  induction values with
  | nil => exact absurd rfl hne
  | cons v values ih =>
    obtain ⟨hv, hvalues⟩ := hvalues
    have hspells := (flatText_spells toDouble w hv (hflat v List.mem_cons_self)).mono
      (Nat.le_max_left v.depth (depthElements values))
    cases values with
    | nil =>
      rw [List.map_singleton, List.intercalate_singleton]
      exact .last hspells hb
    | cons v' values =>
      have hrest := (ih (List.cons_ne_nil _ _) (fun v hv => hflat v (List.mem_cons_of_mem _ hv))
        hvalues).mono (Nat.le_max_right v.depth _)
      have hspace : IsBlank [32] := fun c hc => .inl (List.mem_singleton.mp hc)
      have hcons := SpellsElements.cons hspells .nil (hrest.blank_append hspace)
      rw [List.map_cons, List.map_cons, List.intercalate_cons_cons, List.append_assoc,
        List.append_assoc]
      exact hcons

theorem isBlank_space (w : StreamWriter) :
    IsBlank (if w.indentation = [] then [] else bytes " ") := by
  split
  · exact .nil
  · exact fun c hc => .inl (List.mem_singleton.mp hc)

/-! ## All values -/

mutual

/-- What is written spells the value. -/
theorem writeValue_spells (hw : w.IsPlain) (v : Value) (hv : v.Writable) (hcounts : w.Counts v)
    {s : WriterState} (hs : Writing s) : ∃ text, Appends s (w.writeValue v s) text ∧
      Spells toDouble v.depth text v.canonical := by
  cases hnested : isNested v with
  | false =>
    rw [writeValue_flat hnested]
    exact ⟨_, appends_pushValue hs _, flatText_spells toDouble w hv hnested⟩
  | true =>
    cases v with
    | array values =>
      have hne : values ≠ [] := by simpa [isNested] using hnested
      obtain ⟨hsize, -, hcounts⟩ := hcounts
      have hindex : (canonicalElements values).length ≤ 2 ^ 31 := by
        rw [canonicalElements_eq, List.length_map]
        omega
      rw [writeValue, if_neg (by simpa using hne), Value.depth, Value.canonical]
      dsimp only
      cases hmulti : (rightMargin ≤ values.length * 3 || values.any isNested : Bool) with
      | true =>
        -- nothing is collected
        simp only [if_true, Bool.true_or, childValues_indent]
        have hs' : Writing { s with childValues := [] } := ⟨hs.addChildValues, hs.indentString⟩
        obtain ⟨text, hbody, hspells⟩ := writeElements_spells hw values hv hcounts hne
          (writing_indent hw hs' (bytes "["))
        obtain ⟨b, b', hb, hb', hblock⟩ := appends_block hs' (bytes "[") (bytes "]") hbody
        exact ⟨_, ⟨hblock.sout, hblock.indentString, hblock.addChildValues⟩,
          (Spells.array (hspells b' hb') hindex).blank_append hb⟩
      | false =>
        -- the text of every element is collected
        have hflat : ∀ v ∈ values, isNested v = false := by
          simp only [Bool.or_eq_false_iff, List.any_eq_false, Bool.not_eq_true] at hmulti
          exact hmulti.2
        simp only [Bool.false_eq_true, if_false, Bool.false_or, decide_eq_true_eq,
          childValues_indent]
        rw [writeValue_collect hflat rfl]
        dsimp only [List.nil_append]
        have hs' : Writing { s with
            childValues := values.map w.flatText, addChildValues := false } :=
          ⟨rfl, hs.indentString⟩
        split
        · rw [if_neg (by simpa using hne)]
          obtain ⟨text, hbody, hspells⟩ := writeChildValues_spells toDouble
            (writing_indent hw hs' (bytes "[")) hne hflat hv
          obtain ⟨b, b', hb, hb', hblock⟩ := appends_block hs' (bytes "[") (bytes "]") hbody
          exact ⟨_, ⟨hblock.sout, hblock.indentString,
              hblock.addChildValues.trans hs.addChildValues.symm⟩,
            (Spells.array (hspells b' hb') hindex).blank_append hb⟩
        · have hspace := isBlank_space w
          have hline := Spells.array ((intercalate_spells toDouble w hne hflat hv
            hspace).blank_append hspace) hindex
          refine ⟨_, ⟨rfl, rfl, hs.addChildValues.symm⟩, ?_⟩
          have hbegins : bytes "[" = [91] := rfl
          have hends : bytes "]" = [93] := rfl
          simpa only [hbegins, hends, List.append_assoc, List.cons_append, List.nil_append]
            using hline
    | object members =>
      have hne : members ≠ [] := by simpa [isNested] using hnested
      obtain ⟨hsorted, hmembers⟩ := hv
      obtain ⟨text, hbody, hspells⟩ := writeMembers_spells hw members hmembers hcounts hne
        (writing_indent hw hs (bytes "\x7b"))
      obtain ⟨b, b', hb, hb', hblock⟩ := appends_block hs (bytes "\x7b") (bytes "\x7d") hbody
      rw [writeValue, if_neg (by simpa using hne)]
      have hobject := (Spells.object (hspells b' hb')
        (by rwa [map_fst_canonicalMembers])).blank_append hb
      rw [Value.depth, Value.canonical]
      exact ⟨_, hblock, hobject⟩
    | _ => cases hnested

theorem writeElements_spells (hw : w.IsPlain) (values : List Value)
    (hvalues : WritableElements values) (hcounts : CountsElements w values) (hne : values ≠ [])
    {s : WriterState} (hs : Writing s) : ∃ text, Appends s (w.writeElements values s) text ∧
      ∀ b, IsBlank b → SpellsElements toDouble (depthElements values) (text ++ (b ++ [93]))
        (canonicalElements values) := by
  match values with
  | [] => exact absurd rfl hne
  | v :: values =>
    obtain ⟨hv, hvalues⟩ := hvalues
    obtain ⟨hcount, hcounts⟩ := hcounts
    obtain ⟨b₀, hb₀, hindent⟩ := appends_writeIndentOnce (w := w) hs
    -- The element is written where the line was broken for it.
    have hs' : Writing { w.writeIndentOnce s with indented := true } :=
      ⟨(hindent.writing hs).addChildValues, (hindent.writing hs).indentString⟩
    obtain ⟨text, hvalue, hspells⟩ := writeValue_spells hw v hv hcount hs'
    have hspells := (hspells.blank_append hb₀).mono
      (Nat.le_max_left v.depth (depthElements values))
    have hfirst : Appends s { w.writeValue v { w.writeIndentOnce s with indented := true } with
        indented := false } (b₀ ++ text) :=
      have hvalue' : Appends (w.writeIndentOnce s) _ text :=
        ⟨hvalue.sout, hvalue.indentString, hvalue.addChildValues⟩
      have htrans := hindent.trans hvalue'
      ⟨htrans.sout, htrans.indentString, htrans.addChildValues⟩
    rw [writeElements, canonicalElements, depthElements]
    dsimp only
    match values with
    | [] =>
      exact ⟨_, hfirst, fun b hb => .last hspells hb⟩
    | v' :: values =>
      have hcomma := hfirst.trans (appends_put (bytes ",") _)
      obtain ⟨texts, hrest, hspells'⟩ := writeElements_spells hw (v' :: values) hvalues hcounts
        (List.cons_ne_nil _ _) (hcomma.writing hs)
      refine ⟨_, hcomma.trans hrest, fun b hb => ?_⟩
      rw [List.append_assoc, List.append_assoc]
      exact .cons hspells .nil ((hspells' b hb).mono (Nat.le_max_right v.depth _))

theorem writeMembers_spells (hw : w.IsPlain) (members : List (Bytes × Value))
    (hmembers : WritableMembers members) (hcounts : CountsMembers w members) (hne : members ≠ [])
    {s : WriterState} (hs : Writing s) : ∃ text, Appends s (w.writeMembers members s) text ∧
      ∀ b, IsBlank b → SpellsMembers toDouble (depthMembers members) (text ++ (b ++ [125]))
        (canonicalMembers members) := by
  match members with
  | [] => exact absurd rfl hne
  | (name, v) :: members =>
    obtain ⟨hname, hv, hmembers⟩ := hmembers
    obtain ⟨hcount, hcounts⟩ := hcounts
    obtain ⟨before, after, hbefore, hafter, hcolon⟩ := hw.colon
    obtain ⟨b₀, hb₀, hindent⟩ := appends_writeWithIndent (w := w) hs (valueToQuotedStringN name)
    have hput := hindent.trans (appends_put w.colonSymbol _)
    obtain ⟨text, hvalue, hspells⟩ := writeValue_spells hw v hv hcount (hput.writing hs)
    have hspells := (hspells.blank_append hafter).mono
      (Nat.le_max_left v.depth (depthMembers members))
    have hfirst := hput.trans hvalue
    rw [hcolon] at hfirst
    rw [writeMembers, canonicalMembers, depthMembers, hcolon]
    match members with
    | [] =>
      refine ⟨_, hfirst, fun b hb => ?_⟩
      have hlast := SpellsMembers.last hname hb₀ hbefore hspells hb
      simpa only [List.append_assoc, List.cons_append, canonicalMembers] using hlast
    | member :: members =>
      have hcomma := hfirst.trans (appends_put (bytes ",") _)
      obtain ⟨texts, hrest, hspells'⟩ := writeMembers_spells hw (member :: members) hmembers hcounts
        (List.cons_ne_nil _ _) (hcomma.writing hs)
      refine ⟨_, hcomma.trans hrest, fun b hb => ?_⟩
      have hcons := SpellsMembers.cons hname hb₀ hbefore hspells .nil
        ((hspells' b hb).mono (Nat.le_max_right v.depth _))
      have hbytes : bytes "," = [44] := rfl
      simpa only [hbytes, List.append_assoc, List.cons_append, List.nil_append] using hcons

end

/-- A writer with white space for an indentation. -/
theorem isPlain_newStreamWriter {indentation : Bytes} (h : IsBlank indentation)
    (realToString : Option Rat → Bytes) : (newStreamWriter indentation realToString).IsPlain where
  indentation := h
  colon := by
    unfold newStreamWriter
    split
    · exact ⟨[], [], .nil, .nil, rfl⟩
    · have hspace : IsBlank [32] := fun c hc => .inl (List.mem_singleton.mp hc)
      exact ⟨[32], [32], hspace, hspace, rfl⟩

/-- What is written is read back, whatever was in the root, and whatever follows that does not go on
with a number. -/
theorem parse_written (hw : w.IsPlain) (hv : v.Writable) (hcounts : w.Counts v)
    (hdepth : v.depth ≤ stackLimit) (root : Value) (rest : Bytes) (hrest : EndsNumber rest) :
    parse toDouble (w.write v ++ rest) root = .ok (v.canonical, true) := by
  have hs : Writing {} := ⟨rfl, .nil⟩
  obtain ⟨text, happends, hspells⟩ := writeValue_spells toDouble hw v hv hcounts hs
  have htext : w.write v = text := happends.sout
  rw [parse, htext, hspells.reads stackLimit root rest hdepth hrest]
  rfl

/-- No zero byte is written. -/
theorem zero_notMem_write (hw : w.IsPlain) (hv : v.Writable) (hcounts : w.Counts v) :
    0 ∉ w.write v := by
  have hs : Writing {} := ⟨rfl, .nil⟩
  obtain ⟨text, happends, hspells⟩ := writeValue_spells (fun _ => none) hw v hv hcounts hs
  have htext : w.write v = text := happends.sout
  exact htext ▸ hspells.zero_notMem

end StreamWriter

end Json

/-- The writer of a document is plain. -/
theorem JsonDocument.isPlain_writer (realToString : Option Rat → Bytes) (pretty : Bool) :
    (JsonDocument.writer realToString pretty).IsPlain := by
  refine Json.StreamWriter.isPlain_newStreamWriter ?_ realToString
  split
  · exact fun c hc => .inr (.inl (List.mem_singleton.mp hc))
  · exact .nil

/-- The text of a document is a C string. -/
theorem JsonDocument.zero_notMem_write {d : JsonDocument} {realToString : Option Rat → Bytes}
    {pretty : Bool} (hd : d.root.Writable) (hcounts : (writer realToString pretty).Counts d.root) :
    0 ∉ d.write realToString pretty :=
  Json.StreamWriter.zero_notMem_write (isPlain_writer realToString pretty) hd hcounts

/-- A document is read back from what `Write` makes of it. -/
theorem JsonDocument.parse_written {d : JsonDocument} {realToString : Option Rat → Bytes}
    {pretty : Bool} (hd : d.root.Writable) (hcounts : (writer realToString pretty).Counts d.root)
    (hdepth : d.root.depth ≤ Json.stackLimit) (previous : JsonDocument)
    (toDouble : Bytes → Option (Option Rat)) :
    previous.parse (.jsonCpp toDouble) (d.write realToString pretty) =
      .ok (⟨d.root.canonical⟩, true) := by
  have hread := Json.StreamWriter.parse_written toDouble (isPlain_writer realToString pretty) hd
    hcounts hdepth previous.root [] fun c hc => by cases hc
  rw [List.append_nil] at hread
  have hreader : (Json.Reader.jsonCpp toDouble).parse (d.write realToString pretty) previous.root =
      .ok (d.root.canonical, true) := hread
  rw [JsonDocument.parse, cString_of_not_mem (zero_notMem_write hd hcounts), hreader]
  rfl

end MosqCluster
