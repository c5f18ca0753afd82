import MosqCluster.Helper.IniParser

/-!
# Reading a file and reading a buffer

`ParseFile` of `helper/ini_parser.cpp`, and how it compares with `ParseLines`. `ParseFile` gives
each line to `ParseLine`. `ParseLines` gives it the first line and, for each later one, as many
bytes from its beginning on as lie before its end in the buffer, line ends included.

## Main definitions

* `Config.loadFile`: what `LoadFile` does with the content of a file;
* `linesOf` and `runOn`: the strings that the two functions parse;
* `said`: the value that a list of such strings gives to a name.

## Main results

* `Config.parseFile_eq` and `Config.loadBuffer_eq_some`: what the two functions read;
* `loadsAgree_iff_said`: they read the same where their strings say the same.
-/

namespace MosqCluster

namespace Config

/-- `getline`: a line, and what is behind its line end. `none` where the end of the file has been
met. -/
def getline (ifs : Bytes) : Bytes × Option Bytes :=
  match findFrom ifs LF 0 with
  | some fpos => (ifs.take fpos, some (ifs.drop (fpos + 1)))
  | none => (ifs, none)

theorem length_of_getline {ifs line rest : Bytes} (h : getline ifs = (line, some rest)) :
    rest.length < ifs.length := by
  unfold getline at h
  split at h
  · next fpos hfind =>
    have hlt := lt_length_of_findFrom hfind
    obtain ⟨-, hrest⟩ := Prod.mk.inj h
    rw [← Option.some.inj hrest, List.length_drop]
    omega
  · cases h

/-- The loop of `ParseFile`. -/
def parseFile (c : Config) (ifs : Bytes) : Config :=
  match _ : getline ifs with
  | (line, some rest) => (if line.isEmpty then c else c.parseLine line).parseFile rest
  | (line, none) => if line.isEmpty then c else c.parseLine line
termination_by ifs.length
decreasing_by exact length_of_getline ‹_›

/-- `LoadFile`, of a file that can be opened and has this content. -/
def loadFile (c : Config) (text : Bytes) : Config := c.parseFile text

end Config

/-! ## What the lines say -/

/-- What `ParseLine` takes a line for. -/
inductive LineKind
  /-- An empty line, or a comment. -/
  | skipped
  /-- The beginning of a section. -/
  | header (name : Bytes)
  /-- A key and its value. -/
  | assigns (key value : Bytes)

/-- A line as `ParseLine` reads it. -/
def lineKind (line : Bytes) : LineKind :=
  if line.isEmpty then .skipped
  else
    let str := stripRight (stripLeft line (bytes " \t\r=")) (bytes " \t\r")
    if str.isEmpty || str.head? == some 59 then .skipped
    else if 2 ≤ str.length && str.head? == some 91 && str.getLast? == some 93 then
      .header (substr str 1 (str.length - 2))
    else .assigns (Config.keyValue str).1 (Config.keyValue str).2

/-- The names that get values, with these, where the first line stands in a section. -/
def assignments : Bytes → List Bytes → List (Bytes × Bytes)
  | _, [] => []
  | currentSection, line :: lines =>
    match lineKind line with
    | .skipped => assignments currentSection lines
    | .header name => assignments name lines
    | .assigns key value =>
      (Config.lineName ⟨.empty, currentSection⟩ key, value) :: assignments currentSection lines

/-- The value that a name has in the end. -/
def lastValue (calls : List (Bytes × Bytes)) (name before : Bytes) : Bytes :=
  calls.foldl (fun value call => if call.1 = name then call.2 else value) before

/-- The value that the lines give to a name. -/
def said (lines : List Bytes) (name : Bytes) : Bytes := lastValue (assignments [] lines) name []

/-- The lines of a text that ends in a line end. -/
def linesOf (text : Bytes) : List Bytes := (text.splitOn LF).dropLast

/-- For each line of a text, as many bytes from its beginning on as lie before its end in the text.
The first of the lines begins at the offset. -/
def runOn (text : Bytes) : Nat → List Bytes → List Bytes
  | _, [] => []
  | offset, line :: lines =>
    substr text offset (offset + line.length) :: runOn text (offset + line.length + 1) lines

/-- A file and a buffer with the same content are read alike. -/
def LoadsAgree (text : Bytes) : Prop :=
  ∃ loaded, Config.new.loadBuffer text = some loaded ∧
    ∀ name, loaded.get name = (Config.new.loadFile text).get name

/-! ## What is parsed is said -/

namespace Config

variable {c : Config}

/-- `ParseLine`, by what it takes the line for. -/
theorem parseLine_eq (c : Config) (line : Bytes) :
    c.parseLine line = match lineKind line with
      | .skipped => c
      | .header name => { c with currentSection := name }
      | .assigns key value => c.set (c.lineName key) value := by
  unfold parseLine lineKind
  by_cases hempty : line.isEmpty
  · rw [if_pos hempty, if_pos hempty]
  · rw [if_neg hempty, if_neg hempty]
    generalize stripRight (stripLeft line (bytes " \t\r=")) (bytes " \t\r") = str
    dsimp only
    split_ifs <;> rfl

theorem getD_set (c : Config) (name value name' before : Bytes) :
    ((c.set name value).root.get? name').getD before =
      if name = name' then value else (c.root.get? name').getD before := by
  show ((c.root.set name value).get? name').getD before = _
  split_ifs with h
  · rw [← h, conf.Value.get?_set_self]
    rfl
  · rw [conf.Value.get?_set_of_ne _ _ (Ne.symm h)]

/-- Parsing strings one after another gives every name the value that they say, and leaves alone
what they do not name. -/
theorem getD_foldl_parseLine (lines : List Bytes) (c : Config) (name before : Bytes) :
    ((lines.foldl parseLine c).root.get? name).getD before =
      lastValue (assignments c.currentSection lines) name ((c.root.get? name).getD before) := by
  induction lines generalizing c with
  | nil => rfl
  | cons line lines ih =>
    rw [List.foldl_cons, ih, parseLine_eq, assignments]
    cases lineKind line with
    | skipped => rfl
    | header section_ => rfl
    | assigns key value =>
      simp only [getD_set]
      rfl

theorem get_foldl_parseLine (lines : List Bytes) (c : Config) (name : Bytes) :
    (lines.foldl parseLine c).get name =
      lastValue (assignments c.currentSection lines) name (c.get name) :=
  getD_foldl_parseLine lines c name []

/-- A line of a file. -/
theorem parseFile_line {line : Bytes} (hline : LF ∉ line) (c : Config) (rest : Bytes) :
    c.parseFile (line ++ LF :: rest) = (c.parseLine line).parseFile rest := by
  have hfind : findFrom (line ++ LF :: rest) LF 0 = some line.length := by
    simpa using findFrom_append hline [] rest
  have hgetline : getline (line ++ LF :: rest) = (line, some rest) := by
    simp [getline, hfind]
  have hskip : (if line.isEmpty then c else c.parseLine line) = c.parseLine line := by
    split_ifs with hempty
    · rw [parseLine, if_pos hempty]
    · rfl
  rw [parseFile]
  split
  · next line' rest' heq =>
    obtain ⟨rfl, hrest⟩ := Prod.mk.inj (hgetline.symm.trans heq)
    obtain rfl := Option.some.inj hrest
    rw [hskip]
  · next heq => simp [hgetline] at heq

/-- The end of a file. -/
theorem parseFile_nil (c : Config) : c.parseFile [] = c := by
  rw [parseFile]
  split
  · next heq => simp [getline, findFrom] at heq
  · next heq =>
    obtain ⟨rfl, -⟩ := Prod.mk.inj heq
    rfl

end Config

/-! ## Line by line -/

/-- A text of lines that have line ends. -/
inductive Terminated : Bytes → Prop
  | nil : Terminated []
  | line {l rest : Bytes} : LF ∉ l → Terminated rest → Terminated (l ++ LF :: rest)

/-- The last line of such a text has one, and that is enough. -/
theorem terminated_of_last {text : Bytes} (h : text = [] ∨ text.getLast? = some LF) :
    Terminated text := by
  induction hlen : text.length using Nat.strong_induction_on generalizing text with
  | _ n ih =>
    rcases h with rfl | hlast
    · exact .nil
    · obtain ⟨l, rest, rfl, hl⟩ := List.eq_append_cons_of_mem (List.mem_of_getLast? hlast)
      refine .line hl (ih rest.length ?_ ?_ rfl)
      · rw [← hlen, List.length_append, List.length_cons]
        omega
      · rcases rest.eq_nil_or_concat with rfl | ⟨init, b, rfl⟩
        · exact .inl rfl
        · right
          rw [List.getLast?_append, List.getLast?_cons_of_ne_nil (by simp)] at hlast
          simpa using hlast

theorem linesOf_line {l : Bytes} (hl : LF ∉ l) (rest : Bytes) :
    linesOf (l ++ LF :: rest) = l :: linesOf rest := by
  have hne : rest.splitOn LF ≠ [] := by simp
  rw [linesOf, List.splitOn_append_cons_self_of_not_mem hl, List.dropLast_cons_of_ne_nil hne,
    linesOf]

/-- The lines have no line ends. -/
theorem not_mem_of_mem_linesOf {text : Bytes} (h : Terminated text) :
    ∀ l ∈ linesOf text, LF ∉ l := by
  induction h with
  | nil => simp [linesOf]
  | line hl _ ih =>
    rw [linesOf_line hl]
    exact List.forall_mem_cons.mpr ⟨hl, ih⟩

namespace Config

/-- A file is parsed line by line. -/
theorem parseFile_eq {text : Bytes} (h : Terminated text) (c : Config) :
    c.parseFile text = (linesOf text).foldl parseLine c := by
  induction h generalizing c with
  | nil => exact parseFile_nil c
  | line hl _ ih => rw [parseFile_line hl, ih, linesOf_line hl, List.foldl_cons]

/-- The loop of `ParseLines`, from the beginning of a line on. -/
theorem parseLoop_eq {p : Bytes} (hp : Terminated p) (hne : p ≠ []) (a : Bytes) {turns : Nat}
    (hturns : p.length ≤ turns) (c : Config) :
    parseLoop (a ++ p) turns a.length c =
      some ((runOn (a ++ p) a.length (linesOf p)).foldl parseLine c) := by
  induction hp generalizing a turns c with
  | nil => exact absurd rfl hne
  | @line l rest hl _ ih =>
    rw [List.length_append, List.length_cons] at hturns
    obtain ⟨turns, rfl⟩ : ∃ n, turns = n + 1 := ⟨turns - 1, by omega⟩
    rw [parseLoop, findFrom_append hl a rest, linesOf_line hl, runOn, List.foldl_cons]
    have hlen : (a ++ l ++ [LF]).length = a.length + l.length + 1 := by simp [Nat.add_assoc]
    by_cases hnil : rest = []
    · subst hnil
      simp only [List.length_append, List.length_cons, List.length_nil]
      rw [if_neg (by omega)]
      rfl
    · have hpos := List.length_pos_iff.mpr hnil
      have hsplit : a ++ (l ++ LF :: rest) = a ++ l ++ [LF] ++ rest := by simp
      simp only [List.length_append, List.length_cons]
      rw [if_pos (by omega), hsplit, ← hlen]
      exact ih hnil (a ++ l ++ [LF]) (by omega) _

/-- A buffer is parsed in strings that run on. -/
theorem loadBuffer_eq_some {text : Bytes} (h : Terminated text) (c : Config) :
    c.loadBuffer text = some ((runOn text 0 (linesOf text)).foldl parseLine c) := by
  by_cases hnil : text = []
  · subst hnil
    rfl
  · exact parseLoop_eq h hnil [] (Nat.le_succ _) c

end Config

/-- A file and a buffer are read alike where their lines say the same. -/
theorem loadsAgree_iff_said {text : Bytes} (h : Terminated text) :
    LoadsAgree text ↔
      ∀ name, said (runOn text 0 (linesOf text)) name = said (linesOf text) name := by
  have hget : ∀ lines name, (lines.foldl Config.parseLine .new).get name = said lines name := by
    intro lines name
    rw [Config.get_foldl_parseLine, Config.get, Config.new, conf.Value.get_empty]
    rfl
  rw [LoadsAgree, Config.loadBuffer_eq_some h, Config.loadFile, Config.parseFile_eq h]
  simp only [Option.some.injEq, exists_eq_left', hget]

/-! ## What a line is made of -/

theorem stripLeft_sublist (str value : Bytes) : (stripLeft str value).Sublist str :=
  List.dropWhile_sublist _

theorem stripRight_sublist (str value : Bytes) : (stripRight str value).Sublist str := by
  unfold stripRight
  dsimp only
  split_ifs
  · exact .refl _
  · exact (List.rdropWhile_prefix _ _).sublist

theorem substr_sublist (s : Bytes) (offset count : Nat) : (substr s offset count).Sublist s :=
  (List.take_sublist ..).trans (List.drop_sublist ..)

theorem keyValue_sublist (str : Bytes) :
    (Config.keyValue str).1.Sublist str ∧ (Config.keyValue str).2.Sublist str := by
  unfold Config.keyValue
  split
  · exact ⟨.refl _, List.nil_sublist _⟩
  · exact ⟨(stripRight_sublist ..).trans (List.take_sublist ..),
      (stripLeft_sublist ..).trans (List.drop_sublist ..)⟩

/-- What is taken for a name, a key or a value is a part of the line. -/
theorem sublist_of_lineKind (line : Bytes) :
    (∀ name, lineKind line = .header name → name.Sublist line) ∧
      ∀ key value, lineKind line = .assigns key value → key.Sublist line ∧ value.Sublist line := by
  have hstr : (stripRight (stripLeft line (bytes " \t\r=")) (bytes " \t\r")).Sublist line :=
    (stripRight_sublist ..).trans (stripLeft_sublist ..)
  unfold lineKind
  generalize stripRight (stripLeft line (bytes " \t\r=")) (bytes " \t\r") = str at hstr
  dsimp only
  split_ifs
  · exact ⟨nofun, nofun⟩
  · exact ⟨nofun, nofun⟩
  · refine ⟨?_, nofun⟩
    rintro name ⟨⟩
    exact (substr_sublist ..).trans hstr
  · refine ⟨nofun, ?_⟩
    rintro key value ⟨⟩
    exact ⟨(keyValue_sublist str).1.trans hstr, (keyValue_sublist str).2.trans hstr⟩

/-- A value is the one from before, or the value of one of the calls. -/
theorem lastValue_cases (calls : List (Bytes × Bytes)) (name before : Bytes) :
    lastValue calls name before = before ∨
      ∃ call ∈ calls, call.1 = name ∧ lastValue calls name before = call.2 := by
  induction calls generalizing before with
  | nil => exact .inl rfl
  | cons call calls ih =>
    rw [lastValue, List.foldl_cons]
    rcases ih (if call.1 = name then call.2 else before) with h | ⟨call', hmem, hname, h⟩
    · by_cases hcall : call.1 = name
      · rw [if_pos hcall] at h ⊢
        exact .inr ⟨call, List.mem_cons_self, hcall, h⟩
      · rw [if_neg hcall] at h ⊢
        exact .inl h
    · exact .inr ⟨call', List.mem_cons_of_mem _ hmem, hname, h⟩

end MosqCluster
