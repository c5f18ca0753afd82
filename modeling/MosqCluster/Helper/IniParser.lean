import Mathlib.Data.List.DropRight
import MosqCluster.Helper.Config

/-!
# INI files

`helper/ini_parser.cpp`: how a `Config` is written to a buffer and read from one. `StripLeft` and
`StripRight` are those of `helper/string_helper.cpp` with `entire = false`. Reading appends to the
configuration and keeps the section of the parser, and writing sets it. Files are left out.

`ParseLines` passes the position of the line end to `substr` as a length, so that every line but the
first runs on into the next ones. Where the buffer does not end in a line end, it never returns.

## Main definitions

* `Config`, with `Config.parseLine`, `Config.loadBuffer` and `Config.toBuffer`;
* `RoundTrips`: what is written and read back has the same values.

## Main results

* `roundTrips_iff`: this is so for buffers of at most one line.
-/

namespace MosqCluster

/-- `StripLeft`. -/
def stripLeft (str value : Bytes) : Bytes := str.dropWhile (value.contains ·)

/-- `StripRight`, which leaves a string alone that would become empty. -/
def stripRight (str value : Bytes) : Bytes :=
  let stripped := str.rdropWhile (value.contains ·)
  if stripped.isEmpty then str else stripped

/-- `std::string::substr`. -/
def substr (s : Bytes) (offset count : Nat) : Bytes := (s.drop offset).take count

/-- A line end. -/
def LF : UInt8 := 10

/-- `Config`, with its `IniParser`. -/
structure Config where
  root : conf.Value
  /-- `current_section_`. -/
  currentSection : Bytes

namespace Config

/-- `Config::Config`. -/
def new : Config := ⟨.empty, []⟩

/-- `Config::Get`. -/
def get (c : Config) (name : Bytes) : Bytes := c.root.get name

/-- `Config::Set`. -/
def set (c : Config) (name value : Bytes) : Config := { c with root := c.root.set name value }

/-! ## Reading -/

/-- The name that a key has in the section of the parser. -/
def lineName (c : Config) (key : Bytes) : Bytes :=
  if c.currentSection.isEmpty then key
  else format (cString c.currentSection ++ kSep :: cString key)

/-- The key and the value of a line. -/
def keyValue (str : Bytes) : Bytes × Bytes :=
  match findFrom str 61 0 with
  | none => (str, [])
  | some fpos =>
    (stripRight (str.take fpos) (bytes " \t\r"), stripLeft (str.drop (fpos + 1)) (bytes " \t\r"))

/-- `ParseLine`. -/
def parseLine (c : Config) (line : Bytes) : Config :=
  if line.isEmpty then c
  else
    let str := stripRight (stripLeft line (bytes " \t\r=")) (bytes " \t\r")
    if str.isEmpty || str.head? == some 59 then c
    else if 2 ≤ str.length && str.head? == some 91 && str.getLast? == some 93 then
      { c with currentSection := substr str 1 (str.length - 2) }
    else
      let (key, value) := keyValue str
      c.set (c.lineName key) value

/-- The loop of `ParseLines`, for a number of turns. -/
def parseLoop (lines : Bytes) : Nat → Nat → Config → Option Config
  | 0, _, _ => none
  | turns + 1, offset, c =>
    match findFrom lines LF offset with
    | some fpos =>
      let c := c.parseLine (substr lines offset fpos)
      if fpos + 1 < lines.length then parseLoop lines turns (fpos + 1) c else some c
    | none =>
      let c := c.parseLine (lines.drop offset)
      if offset < lines.length then parseLoop lines turns offset c else some c

/-- `LoadBuffer`; `none` where the loop never ends. A turn that is not the last one moves on behind
a line end or does not move at all, so that a loop that ends takes no more turns than this. -/
def loadBuffer (c : Config) (lines : Bytes) : Option Config :=
  parseLoop lines (lines.length + 1) 0 c

/-! ## Writing -/

/-- `OnArchiveValue`, with the section of the parser and the stream. -/
def onArchiveValue (out : Bytes × Bytes) (a : conf.Value.Archived) : Bytes × Bytes :=
  let header := !a.vpath.isEmpty && out.1.isEmpty
  (if header then a.vpath else out.1,
    out.2 ++ (if header then 91 :: a.vpath ++ [93, LF] else []) ++ a.name ++ 61 :: a.value ++ [LF])

/-- `ToBuffer`. -/
def toBuffer (c : Config) : Config × Bytes :=
  let out := (c.root.archive []).foldl onArchiveValue (c.currentSection, [])
  ({ c with currentSection := out.1 }, out.2)

end Config

/-! ## The round trip -/

/-- The configuration after calls of `Set`. -/
def filled (calls : List (Bytes × Bytes)) : Config :=
  calls.foldl (fun c call => c.set call.1 call.2) .new

/-- A configuration that is written and read into a new one has the same values. -/
def RoundTrips (c : Config) : Prop :=
  ∃ loaded, Config.new.loadBuffer c.toBuffer.2 = some loaded ∧ ∀ name, loaded.get name = c.get name

/-- A component of a name that can be written: it is not empty, has no `=`, no line end, no
carriage return and no zero byte, is not surrounded by blanks, and does not start with `;` or
`[`. -/
structure RepresentableComponent (s : Bytes) : Prop where
  ne_nil : s ≠ []
  chars : ∀ b ∈ s, b ∉ bytes "=\r\n\x00"
  head : ∀ b, s.head? = some b → b ∉ bytes " \t;["
  last : ∀ b, s.getLast? = some b → b ∉ bytes " \t"

/-- A name that can be written. -/
def RepresentableName (name : Bytes) : Prop :=
  name.length < 100000 ∧ ∀ s ∈ name.splitOn kSep, RepresentableComponent s

/-- A value that can be written: it has no line end and no carriage return, and is not surrounded by
blanks. -/
structure RepresentableValue (s : Bytes) : Prop where
  chars : ∀ b ∈ s, b ∉ bytes "\r\n"
  head : ∀ b, s.head? = some b → b ∉ bytes " \t"
  last : ∀ b, s.getLast? = some b → b ∉ bytes " \t"

namespace RepresentableComponent

/-- Components with dots between them have the same properties. -/
theorem of_splitOn {name : Bytes} (h : ∀ s ∈ name.splitOn kSep, RepresentableComponent s) :
    RepresentableComponent name := by
  induction hlen : name.length using Nat.strong_induction_on generalizing name with
  | _ n ih =>
    by_cases hsep : kSep ∈ name
    · obtain ⟨first, rest, rfl, hfirst⟩ := List.eq_append_cons_of_mem hsep
      rw [List.splitOn_append_cons_self_of_not_mem hfirst] at h
      have hhead := h first List.mem_cons_self
      have hrest := ih rest.length (by rw [← hlen]; simp; omega)
        (fun s hs => h s (List.mem_cons_of_mem _ hs)) rfl
      refine ⟨by simp, fun b hb => ?_, fun b hb => ?_, fun b hb => ?_⟩
      · rcases List.mem_append.mp hb with hb | hb
        · exact hhead.chars b hb
        · rcases List.mem_cons.mp hb with rfl | hb
          · decide
          · exact hrest.chars b hb
      · obtain ⟨b', tail, rfl⟩ := List.exists_cons_of_ne_nil hhead.ne_nil
        exact hhead.head b hb
      · apply hrest.last b
        have hsome : rest.getLast?.isSome := by simpa using hrest.ne_nil
        rwa [List.getLast?_append, List.getLast?_cons_of_ne_nil hrest.ne_nil,
          Option.or_of_isSome hsome] at hb
    · rw [List.splitOn_eq_singleton hsep] at h
      exact h name (List.mem_singleton_self name)

/-- The key under which a name is archived. -/
theorem locate {name : Bytes} (h : ∀ s ∈ name.splitOn kSep, RepresentableComponent s)
    (vpath : Bytes) : RepresentableComponent (conf.locate vpath name).2 := by
  induction name using conf.Value.name_induction generalizing vpath with
  | section_ name prop rest hname ih =>
    obtain ⟨rfl, hprop, -⟩ := conf.sectionSplit_eq_some hname
    rw [List.splitOn_append_cons_self_of_not_mem hprop] at h
    rw [conf.locate_of_section hname]
    exact ih (fun s hs => h s (List.mem_cons_of_mem _ hs)) _
  | key name hname =>
    rw [conf.locate_of_key hname]
    exact of_splitOn h

end RepresentableComponent

/-! ## Lines -/

/-- The characters of the string constants of the parser. -/
theorem bytes_eqs : bytes " \t" = [32, 9] ∧ bytes " \t\r" = [32, 9, 13] ∧
    bytes " \t\r=" = [32, 9, 13, 61] ∧ bytes " \t;[" = [32, 9, 59, 91] ∧
    bytes "=\r\n\x00" = [61, 13, 10, 0] ∧ bytes "\r\n" = [13, 10] :=
  ⟨rfl, rfl, rfl, rfl, rfl, rfl⟩

/-- A string that does not start with one of the characters is not changed. -/
theorem stripLeft_of_head {str value : Bytes} (h : ∀ b, str.head? = some b → b ∉ value) :
    stripLeft str value = str := by
  cases str with
  | nil => rfl
  | cons b str =>
    have : ¬ value.contains b = true := by simpa using h b rfl
    exact List.dropWhile_cons_of_neg this

/-- A string that does not end with one of the characters is not changed. -/
theorem stripRight_of_last {str value : Bytes} (h : ∀ b, str.getLast? = some b → b ∉ value) :
    stripRight str value = str := by
  have hstrip : str.rdropWhile (value.contains ·) = str := by
    rw [List.rdropWhile_eq_self_iff]
    intro hne
    simpa using h _ (List.getLast?_eq_some_getLast hne)
  unfold stripRight
  rw [hstrip]
  exact ite_self str

namespace Config

/-- The key and the value of such a line. -/
theorem keyValue_append {key value : Bytes} (hkey : RepresentableComponent key)
    (hhead : ∀ b, value.head? = some b → b ∉ bytes " \t\r") :
    keyValue (key ++ 61 :: value) = (key, value) := by
  have heq : 61 ∉ key := fun hmem => by simpa [bytes_eqs] using hkey.chars 61 hmem
  have hfind : findFrom (key ++ 61 :: value) 61 0 = some key.length := by
    simpa using findFrom_append heq [] value
  have hlast : ∀ b, key.getLast? = some b → b ∉ bytes " \t\r" := by
    intro b hb
    have hblank := hkey.last b hb
    have hchars := hkey.chars b (List.mem_of_getLast? hb)
    simp only [bytes_eqs, List.mem_cons, List.not_mem_nil, or_false, not_or] at hblank hchars ⊢
    exact ⟨hblank.1, hblank.2, hchars.2.1⟩
  have hdrop : (key ++ 61 :: value).drop (key.length + 1) = value := by simp
  simp only [keyValue, hfind]
  rw [List.take_left, hdrop, stripRight_of_last hlast, stripLeft_of_head hhead]

/-- A line with a key and a value. -/
theorem parseLine_keyValue (c : Config) {key value : Bytes} (hkey : RepresentableComponent key)
    (hhead : ∀ b, value.head? = some b → b ∉ bytes " \t\r")
    (hlast : ∀ b, value.getLast? = some b → b ∉ bytes " \t\r") :
    c.parseLine (key ++ 61 :: value) = c.set (c.lineName key) value := by
  obtain ⟨k, hk⟩ : ∃ k, key.head? = some k := by
    cases key with
    | nil => exact absurd rfl hkey.ne_nil
    | cons k tail => exact ⟨k, rfl⟩
  have hfirst : (key ++ 61 :: value).head? = some k := by rw [List.head?_append, hk]; rfl
  have hkhead := hkey.head k hk
  have hkchars := hkey.chars k (List.mem_of_head? hk)
  simp only [bytes_eqs, List.mem_cons, List.not_mem_nil, or_false, not_or] at hkhead hkchars
  have hleft : stripLeft (key ++ 61 :: value) (bytes " \t\r=") = key ++ 61 :: value := by
    refine stripLeft_of_head fun b hb => ?_
    obtain rfl := Option.some.inj (hfirst.symm.trans hb)
    simp [bytes_eqs, hkhead, hkchars]
  have hright : stripRight (key ++ 61 :: value) (bytes " \t\r") = key ++ 61 :: value := by
    refine stripRight_of_last fun b hb => ?_
    rw [List.getLast?_append, List.getLast?_cons] at hb
    cases hv : value.getLast? with
    | none =>
      obtain rfl : 61 = b := by simpa [hv] using hb
      decide
    | some b' => exact hlast b (by simpa [hv] using hb)
  -- the line is neither empty nor a comment nor a section
  have hempty : (key ++ 61 :: value).isEmpty = false := by simp
  have hcomment : (some k == some (59 : UInt8)) = false := by simpa using hkhead.2.2.1
  have hsection : (some k == some (91 : UInt8)) = false := by simpa using hkhead.2.2.2
  simp only [parseLine, hempty, hleft, hright, hfirst, hcomment, hsection, Bool.or_self,
    Bool.and_false, Bool.false_and, Bool.false_eq_true, if_false, keyValue_append hkey hhead]

/-- The line after a line end is read to the end of the buffer. -/
theorem parseLoop_last {a p line : Bytes} (hp : p = [] ∨ p.getLast? = some LF) (hline : LF ∉ line)
    (hne : a ++ p ≠ []) {turns : Nat} (hturns : p.length < turns) (c : Config) :
    ∃ c' : Config, parseLoop (a ++ (p ++ (line ++ [LF]))) turns a.length c =
      some (c'.parseLine (line ++ [LF])) := by
  induction turns generalizing a p c with
  | zero => omega
  | succ turns ih =>
    by_cases hnil : p = []
    · subst hnil
      have hfind := findFrom_append hline a []
      have hlen : 0 < a.length := by
        rw [List.append_nil] at hne
        exact List.length_pos_iff.mpr hne
      refine ⟨c, ?_⟩
      -- the length that `substr` gets reaches beyond the end of the buffer
      have hsub : substr (a ++ ([] ++ (line ++ [LF]))) a.length (a.length + line.length) =
          line ++ [LF] := by
        rw [substr, List.drop_left, List.nil_append]
        exact List.take_of_length_le (by simp; omega)
      simp only [parseLoop, List.nil_append] at hsub ⊢
      rw [hfind]
      simp only [hsub]
      rw [if_neg (by simp; omega)]
    · have hlast := hp.resolve_left hnil
      obtain ⟨m, p', rfl, hm⟩ := List.eq_append_cons_of_mem (List.mem_of_getLast? hlast)
      have hfind := findFrom_append hm a (p' ++ (line ++ [LF]))
      have hp' : p' = [] ∨ p'.getLast? = some LF := by
        rcases p'.eq_nil_or_concat with rfl | ⟨q, x, rfl⟩
        · exact .inl rfl
        · right
          rw [List.getLast?_append, List.getLast?_cons_of_ne_nil (by simp)] at hlast
          simpa using hlast
      have hsplit : a ++ ((m ++ LF :: p') ++ (line ++ [LF])) =
          (a ++ m ++ [LF]) ++ (p' ++ (line ++ [LF])) := by simp
      have hlen : (a ++ m ++ [LF]).length = a.length + m.length + 1 := by simp [Nat.add_assoc]
      have hshort : p'.length < turns := by
        rw [List.length_append, List.length_cons] at hturns
        omega
      obtain ⟨c', hc'⟩ := ih (a := a ++ m ++ [LF]) hp' (by simp) hshort
        (c.parseLine (substr (a ++ ((m ++ LF :: p') ++ (line ++ [LF]))) a.length
          (a.length + m.length)))
      refine ⟨c', ?_⟩
      have hfind' : findFrom (a ++ ((m ++ LF :: p') ++ (line ++ [LF]))) LF a.length =
          some (a.length + m.length) := by
        simpa using hfind
      rw [parseLoop, hfind']
      simp only
      rw [if_pos (by simp; omega), ← hc', hlen, ← hsplit]

/-- A buffer of one line. -/
theorem parseLoop_single {line : Bytes} (hline : LF ∉ line) (turns : Nat) (c : Config) :
    parseLoop (line ++ [LF]) (turns + 1) 0 c = some (c.parseLine line) := by
  have hfind : findFrom (line ++ [LF]) LF 0 = some line.length := by
    simpa using findFrom_append hline [] []
  have hsub : substr (line ++ [LF]) 0 line.length = line := by
    rw [substr, List.drop_zero, List.take_left]
  rw [parseLoop, hfind]
  simp [hsub]

/-! ## The buffer -/

/-- The buffer of archived values, behind what has been written. -/
theorem foldl_onArchiveValue (archived : List conf.Value.Archived) (out : Bytes × Bytes)
    (hout : out.2 = [] ∨ out.2.getLast? = some LF) :
    (archived.foldl onArchiveValue out).2 = [] ∧ archived = [] ∧ out.2 = [] ∨
      (archived.foldl onArchiveValue out).2.getLast? = some LF := by
  induction archived generalizing out with
  | nil => exact hout.imp_left fun hnil => ⟨hnil, rfl, hnil⟩
  | cons a archived ih =>
    have hlast : (onArchiveValue out a).2.getLast? = some LF := by
      simp [onArchiveValue, List.getLast?_append, List.getLast?_cons]
    refine .inr ((ih _ (.inr hlast)).resolve_left fun h => ?_)
    rw [h.2.2] at hlast
    cases hlast

/-- The last line of the buffer, and what is before it. -/
theorem toBuffer_concat {c : Config} {init : List conf.Value.Archived} {a : conf.Value.Archived}
    (hc : c.currentSection = []) (harchive : c.root.archive [] = init ++ [a]) :
    ∃ p, c.toBuffer.2 = p ++ ((a.name ++ 61 :: a.value) ++ [LF]) ∧
      (p = [] ∧ init = [] ∧ a.vpath = [] ∨ p ≠ [] ∧ p.getLast? = some LF) := by
  let out := init.foldl onArchiveValue (c.currentSection, [])
  let header := if !a.vpath.isEmpty && out.1.isEmpty then 91 :: a.vpath ++ [93, LF] else []
  have hheader : header = [] ∨ header.getLast? = some LF := by
    by_cases h : (!a.vpath.isEmpty && out.1.isEmpty) = true
    · exact .inr (by simp [header, h, List.getLast?_cons])
    · exact .inl (by simp [header, h])
  -- The header of a section, if there is one, stands before the last line.
  refine ⟨out.2 ++ header, ?_, ?_⟩
  · simp [toBuffer, harchive, onArchiveValue, out, header]
  · -- Where nothing has been written before, the last line is the only one or has a header.
    rcases foldl_onArchiveValue init (c.currentSection, []) (.inl rfl) with
      ⟨hnil, rfl, -⟩ | hlast
    · by_cases hvpath : a.vpath = []
      · exact .inl ⟨by simp [out, header, hvpath], rfl, hvpath⟩
      · have hne : header ≠ [] := by simp [header, out, hc, hvpath]
        exact .inr ⟨by simp [out, hne], by simpa [out] using hheader.resolve_left hne⟩
    · have hne : out.2 ≠ [] := by
        intro hnil
        rw [show (init.foldl onArchiveValue (c.currentSection, [])).2 = [] from hnil] at hlast
        cases hlast
      refine .inr ⟨by simp [hne], ?_⟩
      rcases hheader with hnil | hheader
      · rw [hnil, List.append_nil]
        exact hlast
      · rw [List.getLast?_append, hheader]
        rfl

end Config

/-! ## Configurations that have been filled -/

theorem RepresentableValue.not_mem_LF {value : Bytes} (h : RepresentableValue value) :
    LF ∉ value := fun hmem => by simpa [bytes_eqs, LF] using h.chars LF hmem

theorem RepresentableValue.head_not_mem {value : Bytes} (h : RepresentableValue value) (b : UInt8)
    (hb : value.head? = some b) : b ∉ bytes " \t\r" := by
  have hblank := h.head b hb
  have hchars := h.chars b (List.mem_of_head? hb)
  simp only [bytes_eqs, List.mem_cons, List.not_mem_nil, or_false, not_or] at hblank hchars ⊢
  exact ⟨hblank.1, hblank.2, hchars.1⟩

theorem RepresentableValue.last_not_mem {value : Bytes} (h : RepresentableValue value) (b : UInt8)
    (hb : value.getLast? = some b) : b ∉ bytes " \t\r" := by
  have hblank := h.last b hb
  have hchars := h.chars b (List.mem_of_getLast? hb)
  simp only [bytes_eqs, List.mem_cons, List.not_mem_nil, or_false, not_or] at hblank hchars ⊢
  exact ⟨hblank.1, hblank.2, hchars.1⟩

theorem RepresentableComponent.not_mem_LF {s : Bytes} (h : RepresentableComponent s) : LF ∉ s :=
  fun hmem => by simpa [bytes_eqs, LF] using h.chars LF hmem

section Filled

variable {calls : List (Bytes × Bytes)}

/-- What is archived of a configuration comes from the calls. -/
theorem representable_of_mem_archive
    (h : ∀ call ∈ calls, RepresentableName call.1 ∧ RepresentableValue call.2)
    {a : conf.Value.Archived} (ha : a ∈ (filled calls).root.archive []) :
    RepresentableComponent a.name ∧ RepresentableValue a.value := by
  induction calls using List.reverseRecOn with
  | nil => cases ha
  | append_singleton calls call ih =>
    rw [filled, List.foldl_append] at ha
    rcases conf.Value.mem_archive_set ha with rfl | ha
    · obtain ⟨hname, hvalue⟩ := h call (by simp)
      exact ⟨.locate hname.2 [], hvalue⟩
    · exact ih (fun call hmem => h call (by simp [hmem])) ha

/-- Every name that has been set is archived. -/
theorem exists_archive_of_call {call : Bytes × Bytes} (h : call ∈ calls) :
    ∃ a ∈ (filled calls).root.archive [], (a.vpath, a.name) = conf.locate [] call.1 := by
  induction calls using List.reverseRecOn with
  | nil => cases h
  | append_singleton calls call' ih =>
    rw [filled, List.foldl_append]
    rcases List.mem_append.mp h with h | h
    · -- A later call takes no name away.
      obtain ⟨a, ha, hlocate⟩ := ih h
      obtain ⟨a', ha', hvpath, hname⟩ :=
        conf.Value.exists_archive_set ha call'.1 call'.2
      exact ⟨a', ha', by rw [hvpath, hname, hlocate]⟩
    · obtain rfl := List.mem_singleton.mp h
      exact ⟨_, conf.Value.mem_archive_of_get? (conf.Value.get?_set_self ..) [], rfl⟩

theorem currentSection_filled (calls : List (Bytes × Bytes)) :
    (filled calls).currentSection = [] := by
  induction calls using List.reverseRecOn with
  | nil => rfl
  | append_singleton calls call ih =>
    rw [filled, List.foldl_append]
    exact ih

/-- A configuration in which one key has been set, outside of any section. -/
theorem filled_of_key {name : Bytes} (hname : conf.sectionSplit name = none)
    (hsame : ∀ call ∈ calls, call.1 = name) (hne : calls ≠ []) :
    ∃ call ∈ calls, (filled calls).root = ⟨[(name, call.2)], []⟩ := by
  induction calls using List.reverseRecOn with
  | nil => exact absurd rfl hne
  | append_singleton calls call ih =>
    obtain rfl := hsame call (by simp)
    refine ⟨call, by simp, ?_⟩
    rw [filled, List.foldl_append]
    show (filled calls).root.set call.1 call.2 = _
    rw [conf.Value.set_of_key hname]
    by_cases hnil : calls = []
    · subst hnil
      rfl
    · -- The key has its place already.
      obtain ⟨call', -, hroot⟩ := ih (fun c hc => hsame c (by simp [hc])) hnil
      rw [hroot]
      simp [OrderedMap.insert]

/-- A name in a section is archived under a path. -/
theorem locate_ne_nil {name : Bytes} (h : ∀ s ∈ name.splitOn kSep, RepresentableComponent s)
    (hsection : conf.sectionSplit name ≠ none) : (conf.locate [] name).1 ≠ [] := by
  -- A path only grows.
  have hpath : ∀ (vpath name : Bytes), vpath ≠ [] → (conf.locate vpath name).1 ≠ [] := by
    intro vpath name
    induction name using conf.Value.name_induction generalizing vpath with
    | section_ name prop rest hname ih =>
      intro hvpath
      rw [conf.locate_of_section hname]
      exact ih _ (by simp [conf.childPath, hvpath])
    | key name hname =>
      intro hvpath
      rwa [conf.locate_of_key hname]
  obtain ⟨⟨prop, rest⟩, hname⟩ := Option.ne_none_iff_exists'.mp hsection
  rw [conf.locate_of_section hname]
  obtain ⟨rfl, hprop, -⟩ := conf.sectionSplit_eq_some hname
  rw [List.splitOn_append_cons_self_of_not_mem hprop] at h
  -- The first section of the name has a name of its own.
  exact hpath _ _ (h prop List.mem_cons_self).ne_nil

/-- No value that has been set has a line end. -/
theorem not_mem_get_filled
    (h : ∀ call ∈ calls, RepresentableName call.1 ∧ RepresentableValue call.2) (name : Bytes) :
    LF ∉ (filled calls).get name := by
  show LF ∉ ((filled calls).root.get? name).getD []
  cases hget : (filled calls).root.get? name with
  | none => exact List.not_mem_nil
  | some value =>
    exact (representable_of_mem_archive h
      (conf.Value.mem_archive_of_get? hget [])).2.not_mem_LF

/-- A buffer of more than one line is not read back: the last value gets a line end. -/
theorem not_roundTrips (h : ∀ call ∈ calls, RepresentableName call.1 ∧ RepresentableValue call.2)
    {init : List conf.Value.Archived} {a : conf.Value.Archived}
    (harchive : (filled calls).root.archive [] = init ++ [a])
    (hmore : ¬ (init = [] ∧ a.vpath = [])) : ¬ RoundTrips (filled calls) := by
  rintro ⟨loaded, hload, hsame⟩
  obtain ⟨hname, hvalue⟩ := representable_of_mem_archive h (a := a) (by rw [harchive]; simp)
  obtain ⟨p, hbuffer, hp⟩ := Config.toBuffer_concat (currentSection_filled calls) harchive
  obtain ⟨hne, hlast⟩ := hp.resolve_left fun hnil => hmore hnil.2
  have hline : LF ∉ a.name ++ 61 :: a.value := by
    simp only [List.mem_append, List.mem_cons, not_or]
    exact ⟨hname.not_mem_LF, by decide, hvalue.not_mem_LF⟩
  have hturns : p.length < (p ++ ((a.name ++ 61 :: a.value) ++ [LF])).length + 1 := by
    rw [List.length_append]
    omega
  -- The loop reads the last line together with its line end, after whatever came before.
  obtain ⟨c, hloop⟩ := Config.parseLoop_last (a := []) (.inr hlast) hline hne hturns .new
  rw [hbuffer, Config.loadBuffer] at hload
  rw [List.nil_append, List.length_nil, hload] at hloop
  have hloaded := Option.some.inj hloop
  -- The line end is part of the value, since only blanks and carriage returns are taken off.
  have hparse : c.parseLine ((a.name ++ 61 :: a.value) ++ [LF]) =
      c.set (c.lineName a.name) (a.value ++ [LF]) := by
    rw [List.append_assoc, List.cons_append]
    refine c.parseLine_keyValue hname (fun b hb => ?_) fun b hb => ?_
    · cases hv : a.value with
      | nil =>
        obtain rfl : LF = b := by simpa [hv] using hb
        decide
      | cons b' tail => exact hvalue.head_not_mem b (by simpa [hv] using hb)
    · obtain rfl : LF = b := by simpa using hb
      decide
  have hget : loaded.get (c.lineName a.name) = a.value ++ [LF] := by
    rw [hloaded, hparse]
    show ((c.root.set _ _).get? _).getD [] = _
    rw [conf.Value.get?_set_self]
    rfl
  -- No value that has been set has a line end.
  refine not_mem_get_filled h (c.lineName a.name) ?_
  rw [← hsame, hget]
  simp

/-- A buffer of one line is read back. -/
theorem roundTrips_of_key {name : Bytes} (hname : conf.sectionSplit name = none)
    (hsame : ∀ call ∈ calls, call.1 = name) (hne : calls ≠ [])
    (h : ∀ call ∈ calls, RepresentableName call.1 ∧ RepresentableValue call.2) :
    RoundTrips (filled calls) := by
  obtain ⟨call, hcall, hroot⟩ := filled_of_key hname hsame hne
  obtain rfl := hsame call hcall
  obtain ⟨hrepresentable, hvalue⟩ := h call hcall
  have hcomponent := RepresentableComponent.of_splitOn hrepresentable.2
  have hline : LF ∉ call.1 ++ 61 :: call.2 := by
    simp only [List.mem_append, List.mem_cons, not_or]
    exact ⟨hcomponent.not_mem_LF, by decide, hvalue.not_mem_LF⟩
  -- The buffer is one line, which the loop reads without its line end.
  have hbuffer : (filled calls).toBuffer.2 = (call.1 ++ 61 :: call.2) ++ [LF] := by
    simp [Config.toBuffer, hroot, conf.Value.archive, conf.archiveChildren, Config.onArchiveValue]
  refine ⟨Config.new.set call.1 call.2, ?_, fun name => ?_⟩
  · rw [hbuffer, Config.loadBuffer, Config.parseLoop_single hline,
      Config.parseLine_keyValue .new hcomponent hvalue.head_not_mem hvalue.last_not_mem]
    rfl
  · show (conf.Value.empty.set call.1 call.2).get name = (filled calls).root.get name
    rw [hroot, conf.Value.set_of_key hname]
    rfl

end Filled

/-- What has been set under names that can be written is read back if and only if the calls have
all set the same name, and this name is not in a section. -/
theorem roundTrips_iff (calls : List (Bytes × Bytes))
    (h : ∀ call ∈ calls, RepresentableName call.1 ∧ RepresentableValue call.2) :
    RoundTrips (filled calls) ↔ ∀ call ∈ calls, conf.sectionSplit call.1 = none ∧
      ∀ call' ∈ calls, call'.1 = call.1 := by
  constructor
  · intro hround
    rcases ((filled calls).root.archive []).eq_nil_or_concat with hnil | ⟨init, a, harchive⟩
    · intro call hcall
      obtain ⟨a, ha, -⟩ := exists_archive_of_call hcall
      rw [hnil] at ha
      cases ha
    · rw [List.concat_eq_append] at harchive
      obtain ⟨rfl, hvpath⟩ : init = [] ∧ a.vpath = [] :=
        by_contra fun hmore => not_roundTrips h harchive hmore hround
      -- every name is the one that is archived
      have hname : ∀ call ∈ calls, conf.sectionSplit call.1 = none ∧ call.1 = a.name := by
        intro call hcall
        obtain ⟨a', ha', hlocate⟩ := exists_archive_of_call hcall
        rw [harchive] at ha'
        obtain rfl := List.mem_singleton.mp ha'
        have hkey : conf.sectionSplit call.1 = none := by
          by_contra hsection
          refine locate_ne_nil (h call hcall).1.2 hsection ?_
          rw [← hlocate]
          exact hvpath
        rw [conf.locate_of_key hkey] at hlocate
        exact ⟨hkey, (Prod.mk.inj hlocate).2.symm⟩
      exact fun call hcall => ⟨(hname call hcall).1, fun call' hcall' =>
        (hname call' hcall').2.trans (hname call hcall).2.symm⟩
  · intro hsame
    rcases calls.eq_nil_or_concat with rfl | ⟨init, call, rfl⟩
    · exact ⟨.new, rfl, fun _ => rfl⟩
    · obtain ⟨hkey, hcalls⟩ := hsame call (by simp)
      exact roundTrips_of_key hkey hcalls (by simp) h

/-- Names and values of one character. -/
theorem representable_singleton {b : UInt8} (hname : b ∉ bytes "=\r\n\x00 \t;[.") :
    RepresentableName [b] ∧ RepresentableValue [b] := by
  simp only [show bytes "=\r\n\x00 \t;[." = [61, 13, 10, 0, 32, 9, 59, 91, 46] from rfl,
    List.mem_cons, List.not_mem_nil, or_false, not_or] at hname
  have hsplit : [b].splitOn kSep = [[b]] :=
    List.splitOn_eq_singleton (by simpa [kSep, eq_comm] using hname.2.2.2.2.2.2.2.2)
  refine ⟨⟨by simp, ?_⟩, ?_⟩
  · rw [hsplit]
    intro s hs
    obtain rfl := List.mem_singleton.mp hs
    constructor <;> simp [bytes_eqs, hname]
  · constructor <;> simp [bytes_eqs, hname]

/-- A configuration with one key. -/
theorem roundTrips_iff_one_key : RoundTrips (filled [(bytes "a", bytes "1")]) := by
  refine (roundTrips_iff [(bytes "a", bytes "1")] ?_).mpr ?_
  · intro call hcall
    obtain rfl := List.mem_singleton.mp hcall
    exact ⟨(representable_singleton (by decide)).1, (representable_singleton (by decide)).2⟩
  · intro call hcall
    obtain rfl := List.mem_singleton.mp hcall
    exact ⟨rfl, fun call' hcall' => by rw [List.mem_singleton.mp hcall']⟩

/-- A configuration with two keys is not read back. -/
theorem not_roundTrips_two_keys : ¬ ∀ calls : List (Bytes × Bytes),
    (∀ call ∈ calls, RepresentableName call.1 ∧ RepresentableValue call.2) →
      RoundTrips (filled calls) := by
  intro hround
  have h : ∀ call ∈ [(bytes "a", bytes "1"), (bytes "b", bytes "2")],
      RepresentableName call.1 ∧ RepresentableValue call.2 := by
    simp only [List.forall_mem_cons, List.not_mem_nil, false_imp_iff, implies_true, and_true]
    exact ⟨⟨(representable_singleton (by decide)).1, (representable_singleton (by decide)).2⟩,
      (representable_singleton (by decide)).1, (representable_singleton (by decide)).2⟩
  have harchive : (filled [(bytes "a", bytes "1"), (bytes "b", bytes "2")]).root.archive [] =
      [⟨[], bytes "a", bytes "1"⟩] ++ [⟨[], bytes "b", bytes "2"⟩] := by
    show conf.Value.archive [] ((conf.Value.empty.set (bytes "a") (bytes "1")).set (bytes "b")
      (bytes "2")) = _
    rw [conf.Value.set_of_key rfl, conf.Value.set_of_key rfl]
    rfl
  exact not_roundTrips h harchive (by simp) (hround _ h)

end MosqCluster
