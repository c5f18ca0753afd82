import MosqCluster.Helper.IniFile

/-!
# Loading one file after another

`LoadFile` for two files and one `Config`. The section of a line is kept in `current_section_`,
which is not reset at the end of a file, so that the first lines of the second file are read in the
section in which the first file ends.

## Main definitions

* `LoadsApart`: each file gives its names the values that it gives them alone;
* `sectionAfter`: the section in which a file ends;
* `topCalls` and `lowerCalls`: what a file assigns before and behind its first section header.

## Main results

* `Config.loadFile_eq`: a file is read line by line;
* `loadsApart_iff`: when two files do not get into each other's way.
-/

namespace MosqCluster

/-! ## Lines and sections -/

/-- The lines of a file, the last one being what stands behind the last line end. -/
def fileLines (text : Bytes) : List Bytes := text.splitOn LF

/-- The section after some lines. -/
def lastSection : Bytes → List Bytes → Bytes
  | currentSection, [] => currentSection
  | currentSection, line :: lines =>
    match lineKind line with
    | .skipped => lastSection currentSection lines
    | .header name => lastSection name lines
    | .assigns _ _ => lastSection currentSection lines

/-- The section in which a file ends, which is the empty one where it has no header. -/
def sectionAfter (text : Bytes) : Bytes := lastSection [] (fileLines text)

/-- A line is a section header. -/
def isHeader (line : Bytes) : Bool :=
  match lineKind line with
  | .skipped => false
  | .header _ => true
  | .assigns _ _ => false

/-- What a file assigns before its first header, in the section of the parser. -/
def topCalls (currentSection text : Bytes) : List (Bytes × Bytes) :=
  assignments currentSection ((fileLines text).takeWhile (!isHeader ·))

/-- What a file assigns behind its first header. -/
def lowerCalls (text : Bytes) : List (Bytes × Bytes) :=
  assignments [] ((fileLines text).dropWhile (!isHeader ·))

/-- The value that a file alone gives to a name. -/
def valueIn (text name : Bytes) : Bytes := said (fileLines text) name

/-- A name has the value that the second file alone assigns to it, and where that file assigns none,
the value that the first file alone gives it. -/
def LoadsApart (first second : Bytes) : Prop :=
  ∀ name, ((Config.new.loadFile first).loadFile second).get name =
    ((Config.new.loadFile second).root.get? name).getD ((Config.new.loadFile first).get name)

/-! ## What a file assigns -/

/-- The assignments of a file are those of its lines. -/
theorem assignments_append (currentSection : Bytes) (lines lines' : List Bytes) :
    assignments currentSection (lines ++ lines') =
      assignments currentSection lines ++
        assignments (lastSection currentSection lines) lines' := by
  induction lines generalizing currentSection with
  | nil => rfl
  | cons line lines ih =>
    rw [List.cons_append, assignments, assignments, lastSection]
    cases lineKind line with
    | skipped => exact ih currentSection
    | header name => exact ih name
    | assigns key value => simp only [ih, List.cons_append]

/-- From a header on, the section before does not matter. -/
theorem assignments_dropWhile (currentSection : Bytes) (lines : List Bytes) :
    assignments currentSection (lines.dropWhile (!isHeader ·)) =
      assignments [] (lines.dropWhile (!isHeader ·)) := by
  cases hdrop : lines.dropWhile (!isHeader ·) with
  | nil => rfl
  | cons line rest =>
    -- what is left starts with a header
    have hheader : isHeader line = true := by
      have := List.head_dropWhile_not (!isHeader ·) (by rw [hdrop]; exact List.cons_ne_nil _ _)
      simpa [hdrop] using this
    rw [assignments, assignments]
    unfold isHeader at hheader
    cases hkind : lineKind line with
    | skipped => simp [hkind] at hheader
    | header name => rfl
    | assigns key value => simp [hkind] at hheader

/-- A file assigns what it assigns before its first header and what it assigns behind it. -/
theorem assignments_fileLines (currentSection text : Bytes) :
    assignments currentSection (fileLines text) =
      topCalls currentSection text ++ lowerCalls text := by
  have happend := assignments_append currentSection ((fileLines text).takeWhile (!isHeader ·))
    ((fileLines text).dropWhile (!isHeader ·))
  rw [List.takeWhile_append_dropWhile] at happend
  rw [happend, assignments_dropWhile, topCalls, lowerCalls]

/-- What is assigned behind the first header counts more than what is assigned before it. -/
theorem lastValue_fileLines (currentSection text name before : Bytes) :
    lastValue (assignments currentSection (fileLines text)) name before =
      lastValue (lowerCalls text) name (lastValue (topCalls currentSection text) name before) := by
  rw [assignments_fileLines, lastValue, List.foldl_append]
  rfl

/-- Calls that do not name a name do not change its value. -/
theorem lastValue_of_not_named {calls : List (Bytes × Bytes)} {name : Bytes}
    (h : ∀ call ∈ calls, call.1 ≠ name) (before : Bytes) :
    lastValue calls name before = before := by
  rcases lastValue_cases calls name before with heq | ⟨call, hmem, hname, -⟩
  · exact heq
  · exact absurd hname (h call hmem)

/-- Calls that name a name give it a value that does not depend on the one before. -/
theorem lastValue_of_named {calls : List (Bytes × Bytes)} {name : Bytes}
    (h : ∃ call ∈ calls, call.1 = name) (before before' : Bytes) :
    lastValue calls name before = lastValue calls name before' := by
  induction calls generalizing before before' with
  | nil =>
    obtain ⟨call, hmem, -⟩ := h
    cases hmem
  | cons call calls ih =>
    rw [lastValue, lastValue, List.foldl_cons, List.foldl_cons]
    by_cases hrest : ∃ call ∈ calls, call.1 = name
    · exact ih hrest _ _
    · -- nothing but the first call names it
      obtain ⟨call', hmem, hname⟩ := h
      rcases List.mem_cons.mp hmem with rfl | hmem
      · simp only [hname, if_true]
      · exact absurd ⟨call', hmem, hname⟩ hrest

namespace Config

/-- A file is read line by line. -/
theorem loadFile_eq (c : Config) (text : Bytes) :
    c.loadFile text = (fileLines text).foldl parseLine c := by
  unfold loadFile fileLines
  -- the induction is on the length of what is left of the file
  induction hlen : text.length using Nat.strong_induction_on generalizing text c with
  | _ n ih =>
    by_cases hmem : LF ∈ text
    · obtain ⟨line, rest, rfl, hline⟩ := List.eq_append_cons_of_mem hmem
      rw [parseFile_line hline, List.splitOn_append_cons_self_of_not_mem hline, List.foldl_cons]
      refine ih rest.length ?_ _ rest rfl
      rw [← hlen, List.length_append, List.length_cons]
      omega
    · -- the last line has no line end
      have hgetline : getline text = (text, none) := by
        rw [getline, findFrom_eq_none_iff.mpr hmem]
      rw [List.splitOn_eq_singleton hmem, List.foldl_cons, List.foldl_nil, parseFile]
      split
      · next heq => simp [hgetline] at heq
      · next heq =>
        obtain ⟨rfl, -⟩ := Prod.mk.inj (hgetline.symm.trans heq)
        split_ifs with hempty
        · rw [parseLine, if_pos hempty]
        · rfl

/-- The section of the parser after some lines. -/
theorem currentSection_foldl_parseLine (lines : List Bytes) (c : Config) :
    (lines.foldl parseLine c).currentSection = lastSection c.currentSection lines := by
  induction lines generalizing c with
  | nil => rfl
  | cons line lines ih =>
    rw [List.foldl_cons, ih, parseLine_eq, lastSection]
    cases lineKind line <;> rfl

/-- What a file gives a name alone. -/
theorem get_new_loadFile (text name : Bytes) :
    (new.loadFile text).get name = valueIn text name := by
  rw [loadFile_eq, get_foldl_parseLine, get, new, conf.Value.get_empty]
  rfl

end Config

/-! ## When two files are loaded apart -/

/-- The values after two files, in terms of what they assign. -/
theorem loadsApart_iff_lastValue (first second : Bytes) :
    LoadsApart first second ↔ ∀ name,
      lastValue (lowerCalls second) name
          (lastValue (topCalls (sectionAfter first) second) name (valueIn first name)) =
        lastValue (lowerCalls second) name
          (lastValue (topCalls [] second) name (valueIn first name)) := by
  have hboth : ∀ name, ((Config.new.loadFile first).loadFile second).get name =
      lastValue (assignments (sectionAfter first) (fileLines second)) name
        (valueIn first name) := by
    intro name
    rw [Config.loadFile_eq _ second, Config.get_foldl_parseLine, Config.get_new_loadFile,
      Config.loadFile_eq, Config.currentSection_foldl_parseLine]
    rfl
  have halone : ∀ name,
      ((Config.new.loadFile second).root.get? name).getD ((Config.new.loadFile first).get name) =
        lastValue (assignments [] (fileLines second)) name (valueIn first name) := by
    intro name
    rw [Config.loadFile_eq _ second, Config.getD_foldl_parseLine, Config.get_new_loadFile,
      Config.new, conf.Value.get?_empty]
    rfl
  simp only [LoadsApart, hboth, halone, lastValue_fileLines]

/-- A name without a dot is none that a key gets in a section. -/
theorem lineName_ne {root : conf.Value} {currentSection key name : Bytes} (hname : kSep ∉ name)
    (hsection : currentSection ≠ []) (hshort : currentSection.length < 50000)
    (hkey : key.length < 50000) : Config.lineName ⟨root, currentSection⟩ key ≠ name := by
  have hle := (List.takeWhile_sublist (l := currentSection) (· ≠ (0 : UInt8))).length_le
  have hle' := (List.takeWhile_sublist (l := key) (· ≠ (0 : UInt8))).length_le
  have hlen : (cString currentSection ++ kSep :: cString key).length < 102400 := by
    rw [List.length_append, List.length_cons, cString, cString]
    omega
  rintro rfl
  apply hname
  rw [Config.lineName, if_neg (by simpa using hsection)]
  show kSep ∈ format (cString currentSection ++ kSep :: cString key)
  -- the name fits in the buffer of `Format` and holds the dot
  rw [format, if_neg (by omega), if_pos hlen]
  simp

/-- A line is not longer than the file. -/
theorem length_le_of_mem_fileLines {line text : Bytes} (h : line ∈ fileLines text) :
    line.length ≤ text.length := by
  unfold fileLines at h
  induction hlen : text.length using Nat.strong_induction_on generalizing text with
  | _ n ih =>
    by_cases hmem : LF ∈ text
    · obtain ⟨l, rest, rfl, hl⟩ := List.eq_append_cons_of_mem hmem
      rw [List.splitOn_append_cons_self_of_not_mem hl] at h
      rw [List.length_append, List.length_cons] at hlen
      rcases List.mem_cons.mp h with rfl | h
      · omega
      · have := ih rest.length (by omega) h rfl
        omega
    · rw [List.splitOn_eq_singleton hmem] at h
      rw [List.mem_singleton.mp h, hlen]

/-- The section in which a file ends is not longer than the file. -/
theorem length_sectionAfter_le (text : Bytes) : (sectionAfter text).length ≤ text.length := by
  have hrun : ∀ (lines : List Bytes) (currentSection : Bytes),
      (∀ line ∈ lines, line.length ≤ text.length) → currentSection.length ≤ text.length →
        (lastSection currentSection lines).length ≤ text.length := by
    intro lines
    induction lines with
    | nil => exact fun _ _ h => h
    | cons line lines ih =>
      intro currentSection hlines hsection
      obtain ⟨hline, hlines⟩ := List.forall_mem_cons.mp hlines
      unfold lastSection
      split
      · exact ih _ hlines hsection
      · next name hkind =>
        have := ((sublist_of_lineKind line).1 name hkind).length_le
        exact ih _ hlines (by omega)
      · exact ih _ hlines hsection
  -- every section stands in a line of the file
  exact hrun _ [] (fun line => length_le_of_mem_fileLines) (Nat.zero_le _)

/-- Lines without a header assign their keys in the section of the parser. -/
theorem exists_of_mem_assignments {currentSection : Bytes} {lines : List Bytes}
    (hlines : ∀ line ∈ lines, isHeader line = false) {call : Bytes × Bytes}
    (h : call ∈ assignments currentSection lines) :
    ∃ line ∈ lines, ∃ key value, lineKind line = .assigns key value ∧
      call = (Config.lineName ⟨.empty, currentSection⟩ key, value) := by
  induction lines with
  | nil => cases h
  | cons line lines ih =>
    obtain ⟨hline, hlines⟩ := List.forall_mem_cons.mp hlines
    have hrest : call ∈ assignments currentSection lines → ∃ l ∈ line :: lines,
        ∃ key value, lineKind l = .assigns key value ∧
          call = (Config.lineName ⟨.empty, currentSection⟩ key, value) := fun hmem =>
      (ih hlines hmem).imp fun _ hfound => ⟨List.mem_cons_of_mem line hfound.1, hfound.2⟩
    unfold assignments at h
    unfold isHeader at hline
    cases hkind : lineKind line with
    | skipped =>
      rw [hkind] at h
      exact hrest h
    | header name => simp [hkind] at hline
    | assigns key value =>
      rw [hkind] at h
      rcases List.mem_cons.mp h with rfl | h
      · exact ⟨line, List.mem_cons_self, key, value, hkind, rfl⟩
      · exact hrest h

/-- In a section, the lines before the first header assign nothing to a name without a dot. -/
theorem topCalls_ne {currentSection text name : Bytes} (hname : kSep ∉ name)
    (hsection : currentSection ≠ []) (hshort : currentSection.length < 50000)
    (htext : text.length < 50000) : ∀ call ∈ topCalls currentSection text, call.1 ≠ name := by
  intro call hcall
  have hlines : ∀ line ∈ (fileLines text).takeWhile (!isHeader ·), isHeader line = false := by
    intro line hline
    simpa using List.mem_takeWhile_imp hline
  obtain ⟨line, hline, key, value, hkind, rfl⟩ := exists_of_mem_assignments hlines hcall
  have hlen := length_le_of_mem_fileLines ((List.takeWhile_subset _) hline)
  have hkey := ((sublist_of_lineKind line).2 key value hkind).1.length_le
  exact lineName_ne hname hsection hshort (by omega)

/-- Two files are loaded apart exactly where the first one does not end in a section, or every name
that the second one does not assign behind its first header gets the same value from the lines
before that header, with the section before their keys and without. Where files are shorter than
50000 bytes and the second one gives a new value to a name without a dot before its first header
and only there, it is the first one that decides. -/
theorem loadsApart_iff (first second : Bytes) :
    (LoadsApart first second ↔ sectionAfter first = [] ∨
      ∀ name, (∀ call ∈ lowerCalls second, call.1 ≠ name) →
        lastValue (topCalls (sectionAfter first) second) name (valueIn first name) =
          lastValue (topCalls [] second) name (valueIn first name)) ∧
    (∀ name, kSep ∉ name → first.length < 50000 → second.length < 50000 →
      (∀ call ∈ lowerCalls second, call.1 ≠ name) →
      lastValue (topCalls [] second) name (valueIn first name) ≠ valueIn first name →
        (LoadsApart first second ↔ sectionAfter first = [])) := by
  have hiff : LoadsApart first second ↔ sectionAfter first = [] ∨
      ∀ name, (∀ call ∈ lowerCalls second, call.1 ≠ name) →
        lastValue (topCalls (sectionAfter first) second) name (valueIn first name) =
          lastValue (topCalls [] second) name (valueIn first name) := by
    rw [loadsApart_iff_lastValue]
    constructor
    · intro hsame
      refine .inr fun name hlower => ?_
      have := hsame name
      rwa [lastValue_of_not_named hlower, lastValue_of_not_named hlower] at this
    · rintro (hsection | hsame) name
      · rw [hsection]
      · -- a name that is assigned behind the header gets its value there
        by_cases hlower : ∃ call ∈ lowerCalls second, call.1 = name
        · exact lastValue_of_named hlower _ _
        · push Not at hlower
          rw [hsame name hlower]
  refine ⟨hiff, fun name hname hfirst hsecond hlower hnew => ?_⟩
  rw [hiff]
  constructor
  · rintro (hsection | hsame)
    · exact hsection
    · by_contra hsection
      -- in the section, nothing before the first header gives the name its value
      have hshort : (sectionAfter first).length < 50000 :=
        (length_sectionAfter_le first).trans_lt hfirst
      have htop := lastValue_of_not_named (topCalls_ne hname hsection hshort hsecond)
        (valueIn first name)
      exact hnew ((hsame name hlower).symm.trans htop)
  · exact .inl

/-- A file that ends in a section, and one that sets a port. -/
theorem loadsApart_iff_port : LoadsApart (bytes "[mosq]\n") (bytes "port=1883") ↔
    sectionAfter (bytes "[mosq]\n") = [] :=
  (loadsApart_iff (bytes "[mosq]\n") (bytes "port=1883")).2 (bytes "port") (by decide)
    (by decide) (by decide) (by decide) (by decide)

/-- The port is not set under its own name. -/
theorem not_loadsApart_section :
    ¬ ∀ first second, LoadsApart first second := by
  intro h
  have hsame := (loadsApart_iff_lastValue (bytes "[mosq]\n") (bytes "port=1883")).mp (h _ _)
    (bytes "port")
  exact absurd hsame (by decide)

end MosqCluster
