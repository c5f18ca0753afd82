import MosqCluster.Helper.IniSections

/-!
# When a file and a buffer are read alike

`LoadFile` and `LoadBuffer` on the same text, whose lines have line ends. Both give the first line
to `ParseLine`. Of each later line, `LoadBuffer` parses as many bytes from its beginning on as lie
before its end in the text: such a string runs on behind the line end, so that whatever value it
gives has a line end, or stands under a name with one. `LoadFile` gives no such value.

## Main definitions

* `Silent`: a line that gives no value;
* `LaterLine`, `prolonged`: a line that is not the first, and with it the bytes behind it;
* `FirstLineOnly`: a text of which only the first line gives a value;
* `RunsApart`: no later line takes back what another one says.

## Main results

* `loadsAgree_iff`: a text of which only the first line gives a value is read alike, and apart from
  lines that take something back, no other text is.
-/

namespace MosqCluster

/-! ## Lines that give no value -/

/-- A line without the characters around it that `ParseLine` takes away. -/
def stripped (line : Bytes) : Bytes :=
  stripRight (stripLeft line (bytes " \t\r=")) (bytes " \t\r")

/-- A line that gives no value: a comment, the beginning of a section, or a key without anything
behind its first `=`. -/
def Silent (line : Bytes) : Prop :=
  (stripped line).head? = some 59 ∨ isHeader line = true ∨ 61 ∉ (stripped line).dropLast

instance (line : Bytes) : Decidable (Silent line) := inferInstanceAs (Decidable (_ ∨ _ ∨ _))

/-- Without a zero byte, and short enough for `format` together with another one. -/
def Short (s : Bytes) : Prop := 0 ∉ s ∧ s.length < 50000

instance (s : Bytes) : Decidable (Short s) := inferInstanceAs (Decidable (_ ∧ _))

/-- A line of a text that is not the first, with what stands before it. -/
structure LaterLine (text before line : Bytes) : Prop where
  text : before ++ line ++ [LF] <+: text
  before : before.getLast? = some LF
  line : LF ∉ line

/-- A line together with the bytes behind it, as many as stand before it, as far as the text
goes. -/
def prolonged (text before line : Bytes) : Bytes :=
  (text.drop before.length).take (before.length + line.length)

/-- Only the first line gives a value: no later line gives one, either by itself or together with
the bytes behind it, as many as stand before the line; nor does it name what the first line gives a
value to. -/
structure FirstLineOnly (text : Bytes) : Prop where
  later : ∀ before line, LaterLine text before line →
    Silent line ∧ Silent (prolonged text before line)
  first : ∀ line behind, text = line ++ LF :: behind → LF ∉ line → ∀ key value,
    lineKind line = .assigns key value → value ≠ [] →
      Short text ∧ ∀ call ∈ assignments [] (linesOf behind), call.1 ≠ key

/-- The part of a string that stands on its first line. -/
def lineOne (run : Bytes) : Bytes := (stripped run).takeWhile (· ≠ LF)

/-- Together with the bytes behind them, no later line begins a section, and a line that comes once
more gives no value the first time, or has the `=` in itself. -/
structure RunsApart (text : Bytes) : Prop where
  header : ∀ before line, LaterLine text before line →
    isHeader (prolonged text before line) = false
  again : ∀ before line before' line', LaterLine text before line →
    LaterLine text before' line' → before.length < before'.length →
      lineOne (prolonged text before line) = lineOne (prolonged text before' line') →
        Silent (prolonged text before line) ∨ 61 ∈ lineOne (prolonged text before line)

/-! ## What is left of a line -/

theorem dropWhile_append_cons {p : UInt8 → Bool} {b : UInt8} (hb : p b = false) (l m : Bytes) :
    (l ++ b :: m).dropWhile p = l.dropWhile p ++ b :: m := by
  rw [List.dropWhile_append, List.dropWhile_cons_of_neg (by simp [hb])]
  split_ifs with hnil
  · rw [List.isEmpty_iff.mp hnil, List.nil_append]
  · rfl

/-- A character that is not stripped stays, with what is before it. -/
theorem stripLeft_append_cons {value : Bytes} {b : UInt8} (hb : b ∉ value) (l m : Bytes) :
    stripLeft (l ++ b :: m) value = stripLeft l value ++ b :: m :=
  dropWhile_append_cons (by simpa using hb) l m

theorem prefix_of_stripRight (str value : Bytes) : stripRight str value <+: str := by
  unfold stripRight
  dsimp only
  split_ifs
  · exact List.prefix_rfl
  · exact List.rdropWhile_prefix _ _

theorem exists_stripRight_append_cons {value : Bytes} {b : UInt8} (hb : b ∉ value) (l m : Bytes) :
    ∃ m', stripRight (l ++ b :: m) value = l ++ b :: m' := by
  have hdrop : (l ++ b :: m).rdropWhile (value.contains ·) =
      l ++ b :: m.rdropWhile (value.contains ·) := by
    rw [List.rdropWhile, List.reverse_append, List.reverse_cons, List.append_assoc,
      List.singleton_append, dropWhile_append_cons (by simpa using hb)]
    simp [List.rdropWhile]
  unfold stripRight
  dsimp only
  rw [hdrop]
  split_ifs with hnil
  · exact ⟨m, rfl⟩
  · exact ⟨_, rfl⟩

/-- A line end that is not at the edge of what is stripped stays. -/
theorem mem_stripLeft {str value : Bytes} {b : UInt8} (hb : b ∉ value) (h : b ∈ str) :
    b ∈ stripLeft str value := by
  induction str with
  | nil => cases h
  | cons x str ih =>
    unfold stripLeft
    by_cases hx : value.contains x
    · rw [List.dropWhile_cons_of_pos hx]
      rcases List.mem_cons.mp h with rfl | h
      · simp [hb] at hx
      · exact ih h
    · rw [List.dropWhile_cons_of_neg hx]
      exact h

theorem mem_stripRight {str value : Bytes} {b : UInt8} (hb : b ∉ value) (h : b ∈ str) :
    b ∈ stripRight str value := by
  have hmem : b ∈ str.rdropWhile (value.contains ·) := by
    rw [List.rdropWhile, List.mem_reverse]
    exact mem_stripLeft hb (List.mem_reverse.mpr h)
  unfold stripRight
  dsimp only
  split_ifs
  · exact h
  · exact hmem

/-- A line that runs on keeps its line end. -/
theorem exists_stripped_append_LF (line more : Bytes) :
    ∃ more', stripped (line ++ LF :: more) =
      stripLeft line (bytes " \t\r=") ++ LF :: more' := by
  unfold stripped
  rw [stripLeft_append_cons (by decide)]
  exact exists_stripRight_append_cons (by decide) _ _

/-- What is stripped does not end in a blank. -/
theorem last_stripped {line : Bytes} {b : UInt8} (h : (stripped line).getLast? = some b) :
    b ∉ bytes " \t\r" := by
  unfold stripped stripRight at h
  dsimp only at h
  split_ifs at h with hnil
  · -- all that is left are blanks, but what is left does not begin with one
    rw [List.isEmpty_iff, List.rdropWhile_eq_nil_iff] at hnil
    cases hleft : stripLeft line (bytes " \t\r=") with
    | nil =>
      rw [hleft] at h
      cases h
    | cons c left =>
      have hc : c ∈ bytes " \t\r" := by
        simpa using hnil c (by rw [hleft]; exact List.mem_cons_self)
      have hstop := List.head?_dropWhile_not ((bytes " \t\r=").contains ·) line
      rw [← stripLeft, hleft] at hstop
      have hsub : bytes " \t\r" ⊆ bytes " \t\r=" := by decide
      simp [hsub hc] at hstop
  · have hlast := List.rdropWhile_last_not ((bytes " \t\r").contains ·)
      (stripLeft line (bytes " \t\r=")) (by simpa using hnil)
    rw [List.getLast?_eq_some_getLast (by simpa using hnil)] at h
    rw [Option.some.inj h] at hlast
    simpa using hlast

/-- What `ParseLine` takes a line for. -/
theorem lineKind_cases (line : Bytes) :
    lineKind line = .skipped ∧ (stripped line = [] ∨ (stripped line).head? = some 59) ∨
    (∃ name, lineKind line = .header name) ∨
    (stripped line).head? ≠ some 59 ∧
      lineKind line = .assigns (Config.keyValue (stripped line)).1
        (Config.keyValue (stripped line)).2 := by
  have hstripped : stripRight (stripLeft line (bytes " \t\r=")) (bytes " \t\r") =
      stripped line := rfl
  unfold lineKind
  rw [hstripped]
  by_cases hempty : line.isEmpty
  · rw [if_pos hempty]
    obtain rfl := List.isEmpty_iff.mp hempty
    exact .inl ⟨rfl, .inl rfl⟩
  · rw [if_neg hempty]
    dsimp only
    split_ifs with hskip hheader
    · exact .inl ⟨rfl, by simpa using hskip⟩
    · exact .inr (.inl ⟨_, rfl⟩)
    · refine .inr (.inr ⟨fun hhead => hskip ?_, rfl⟩)
      simp [hhead]

/-- The value behind a key is empty where there is nothing behind the first `=`. -/
theorem keyValue_snd_eq_nil_iff {str : Bytes}
    (hlast : ∀ b, str.getLast? = some b → b ∉ bytes " \t\r") :
    (Config.keyValue str).2 = [] ↔ 61 ∉ str.dropLast := by
  unfold Config.keyValue
  split
  · next hfind =>
    refine iff_of_true rfl fun hmem => findFrom_eq_none_iff.mp hfind ?_
    exact (List.dropLast_subset _) hmem
  · next fpos hfind =>
    obtain ⟨hstr, hkey⟩ := eq_append_of_findFrom_zero hfind
    generalize str.take fpos = key at hstr hkey
    generalize str.drop (fpos + 1) = value at hstr
    subst hstr
    dsimp only
    rcases value.eq_nil_or_concat' with rfl | ⟨value, b, rfl⟩
    · refine iff_of_true rfl ?_
      rw [List.dropLast_concat]
      exact hkey
    · -- the last character of the value is none of those that are stripped
      have hb : b ∉ bytes " \t\r" := by
        refine hlast b ?_
        rw [List.getLast?_append, List.getLast?_cons, List.getLast?_concat]
        rfl
      have hstay : b ∈ stripLeft (value ++ [b]) (bytes " \t\r") :=
        mem_stripLeft hb (by simp)
      refine iff_of_false (fun hnil => ?_) ?_
      · rw [hnil] at hstay
        cases hstay
      · rw [← List.cons_append, ← List.append_assoc, List.dropLast_concat]
        simp

/-- A line is silent where it assigns no value, or the empty one. -/
theorem silent_iff (line : Bytes) :
    Silent line ↔ ∀ key value, lineKind line = .assigns key value → value = [] := by
  rcases lineKind_cases line with ⟨hkind, hskip⟩ | ⟨name, hkind⟩ | ⟨hhead, hkind⟩
  · refine iff_of_true ?_ fun key value h => ?_
    · rcases hskip with hnil | hcomment
      · refine .inr (.inr ?_)
        rw [hnil]
        exact List.not_mem_nil
      · exact .inl hcomment
    · rw [hkind] at h
      cases h
  · refine iff_of_true (.inr (.inl ?_)) fun key value h => ?_
    · rw [isHeader, hkind]
    · rw [hkind] at h
      cases h
  · have hheader : ¬ isHeader line = true := by
      rw [isHeader, hkind]
      exact Bool.false_ne_true
    rw [Silent, or_iff_right hhead, or_iff_right hheader,
      ← keyValue_snd_eq_nil_iff (fun b => last_stripped)]
    constructor
    · intro hnil key value h
      rw [hkind] at h
      rw [← (LineKind.assigns.inj h).2, hnil]
    · exact fun h => h _ _ hkind

/-- A line that gives no value when it runs on gives none by itself. -/
theorem silent_of_silent_append {line more : Bytes} (h : Silent (line ++ LF :: more))
    (hheader : isHeader (line ++ LF :: more) = false) : Silent line := by
  obtain ⟨more', hmore⟩ := exists_stripped_append_LF line more
  rcases h with hcomment | hsection | hkey
  · -- The first character that is not taken away is before the line end.
    left
    rw [hmore] at hcomment
    unfold stripped
    cases hleft : stripLeft line (bytes " \t\r=") with
    | nil =>
      rw [hleft] at hcomment
      cases hcomment
    | cons c left =>
      rw [hleft] at hcomment
      obtain rfl : c = 59 := Option.some.inj hcomment
      obtain ⟨left', hleft'⟩ :=
        exists_stripRight_append_cons (show (59 : UInt8) ∉ bytes " \t\r" by decide) [] left
      rw [List.nil_append] at hleft'
      rw [hleft']
      rfl
  · rw [hheader] at hsection
    cases hsection
  · -- An `=` of the line has the line end behind it.
    refine .inr (.inr fun hmem => hkey ?_)
    have hleft : (61 : UInt8) ∈ stripLeft line (bytes " \t\r=") :=
      (stripRight_sublist _ _).subset ((List.dropLast_subset _) hmem)
    rw [hmore, List.dropLast_append_of_ne_nil (List.cons_ne_nil _ _)]
    exact List.mem_append_left _ hleft

/-- A key ends before the first `=`. -/
theorem not_mem_keyValue_fst (str : Bytes) : 61 ∉ (Config.keyValue str).1 := by
  unfold Config.keyValue
  split
  · next hfind => exact findFrom_eq_none_iff.mp hfind
  · next fpos hfind =>
    exact fun hmem => (eq_append_of_findFrom_zero hfind).2 ((stripRight_sublist _ _).subset hmem)

/-- The first line of a key with a line end is that of its string, and has no `=`. -/
theorem lineOne_of_key {line key value : Bytes} (hkind : lineKind line = .assigns key value)
    (h : LF ∈ key) : lineOne line = key.takeWhile (· ≠ LF) ∧ 61 ∉ lineOne line := by
  rcases lineKind_cases line with ⟨hkind', -⟩ | ⟨name, hkind'⟩ | ⟨-, hkind'⟩
  · rw [hkind'] at hkind
    cases hkind
  · rw [hkind'] at hkind
    cases hkind
  · rw [hkind'] at hkind
    obtain ⟨hkey, -⟩ := LineKind.assigns.inj hkind
    have hprefix : key <+: stripped line := by
      rw [← hkey, Config.keyValue]
      split
      · exact List.prefix_rfl
      · exact (prefix_of_stripRight _ _).trans (List.take_prefix _ _)
    obtain ⟨rest, hrest⟩ := hprefix
    have hone : lineOne line = key.takeWhile (· ≠ LF) := by
      rw [lineOne, ← hrest, List.takeWhile_append, if_neg]
      intro hall
      -- all of the key would be on its first line
      have hfirst := List.takeWhile_eq_self_iff.mp (List.IsPrefix.eq_of_length
        (List.takeWhile_prefix _) hall)
      simpa using hfirst LF h
    refine ⟨hone, fun hmem => ?_⟩
    rw [hone] at hmem
    exact not_mem_keyValue_fst (stripped line) (hkey ▸ (List.takeWhile_subset _) hmem)

/-- A line end within a line gets into the key or into the value. -/
theorem mem_of_lineKind {line key value : Bytes} (h : LF ∈ line)
    (hkind : lineKind line = .assigns key value) : LF ∈ key ∨ LF ∈ value := by
  have hstr : LF ∈ stripRight (stripLeft line (bytes " \t\r=")) (bytes " \t\r") :=
    mem_stripRight (by decide) (mem_stripLeft (by decide) h)
  unfold lineKind at hkind
  generalize stripRight (stripLeft line (bytes " \t\r=")) (bytes " \t\r") = str at hstr hkind
  dsimp only at hkind
  split_ifs at hkind
  obtain ⟨rfl, rfl⟩ := LineKind.assigns.inj hkind
  unfold Config.keyValue
  split
  · exact .inl hstr
  · next fpos hfind =>
    rw [(eq_append_of_findFrom_zero hfind).1, List.mem_append, List.mem_cons] at hstr
    rcases hstr with hkey | heq | hvalue
    · exact .inl (mem_stripRight (by decide) hkey)
    · cases heq
    · exact .inr (mem_stripLeft (by decide) hvalue)

/-! ## Names with line ends -/

theorem Short.of_sublist {s t : Bytes} (h : Short t) (hs : s.Sublist t) : Short s :=
  ⟨fun h0 => h.1 (hs.subset h0), hs.length_le.trans_lt h.2⟩

/-- The name of a key without a line end in a section without one has none. -/
theorem not_mem_lineName {root : conf.Value} {currentSection key : Bytes}
    (hsection : LF ∉ currentSection) (hkey : LF ∉ key) :
    LF ∉ Config.lineName ⟨root, currentSection⟩ key := by
  have htext : LF ∉ cString currentSection ++ kSep :: cString key := by
    simp only [List.mem_append, List.mem_cons, not_or]
    exact ⟨fun h => hsection ((List.takeWhile_subset _) h), by decide,
      fun h => hkey ((List.takeWhile_subset _) h)⟩
  unfold Config.lineName format
  split_ifs
  · exact hkey
  · exact List.not_mem_nil
  · exact htext
  · rw [List.mem_append, not_or]
    exact ⟨fun h => htext (List.mem_of_mem_take h), by decide⟩

/-- The name of a short key in a short section. -/
theorem lineName_of_short {root : conf.Value} {currentSection key : Bytes}
    (hsection : Short currentSection) (hkey : Short key) :
    Config.lineName ⟨root, currentSection⟩ key =
      if currentSection.isEmpty then key else currentSection ++ kSep :: key := by
  unfold Config.lineName
  split_ifs
  · rfl
  · have hlen : (currentSection ++ kSep :: key).length < 102400 := by
      have := hsection.2
      have := hkey.2
      rw [List.length_append, List.length_cons]
      omega
    rw [cString_of_not_mem hsection.1, cString_of_not_mem hkey.1, format,
      if_neg (by omega), if_pos hlen]

/-- Short keys with the same name in a short section are the same. -/
theorem key_eq_of_lineName {root : conf.Value} {currentSection key key' : Bytes}
    (hsection : Short currentSection) (hkey : Short key) (hkey' : Short key')
    (h : Config.lineName ⟨root, currentSection⟩ key =
      Config.lineName ⟨root, currentSection⟩ key') : key = key' := by
  rw [lineName_of_short hsection hkey, lineName_of_short hsection hkey'] at h
  split_ifs at h with hnil
  · exact h
  · simpa using h

/-- Lines without line ends assign nothing with line ends. -/
theorem not_mem_assignments {lines : List Bytes} (h : ∀ l ∈ lines, LF ∉ l)
    (currentSection : Bytes) (hsection : LF ∉ currentSection) :
    ∀ call ∈ assignments currentSection lines, LF ∉ call.1 ∧ LF ∉ call.2 := by
  induction lines generalizing currentSection with
  | nil => nofun
  | cons line lines ih =>
    obtain ⟨hline, hlines⟩ := List.forall_mem_cons.mp h
    obtain ⟨hheader, hassigns⟩ := sublist_of_lineKind line
    unfold assignments
    split
    · exact ih hlines _ hsection
    · next name hkind => exact ih hlines _ fun hname => hline ((hheader _ hkind).subset hname)
    · next key value hkind =>
      obtain ⟨hkey, hvalue⟩ := hassigns _ _ hkind
      refine List.forall_mem_cons.mpr ⟨⟨?_, fun hmem => ?_⟩, ih hlines _ hsection⟩
      · exact not_mem_lineName hsection fun hmem => hline (hkey.subset hmem)
      · exact hline (hvalue.subset hmem)

/-- Strings with line ends assign nothing without. -/
theorem mem_assignments {lines : List Bytes} (h : ∀ l ∈ lines, Short l ∧ LF ∈ l)
    (currentSection : Bytes) (hsection : Short currentSection) :
    ∀ call ∈ assignments currentSection lines, LF ∈ call.1 ∨ LF ∈ call.2 := by
  induction lines generalizing currentSection with
  | nil => nofun
  | cons line lines ih =>
    obtain ⟨⟨hshort, hline⟩, hlines⟩ := List.forall_mem_cons.mp h
    obtain ⟨hheader, hassigns⟩ := sublist_of_lineKind line
    unfold assignments
    split
    · exact ih hlines _ hsection
    · next name hkind => exact ih hlines _ (hshort.of_sublist (hheader _ hkind))
    · next key value hkind =>
      refine List.forall_mem_cons.mpr ⟨?_, ih hlines _ hsection⟩
      refine (mem_of_lineKind hline hkind).imp_left fun hkey => ?_
      rw [lineName_of_short hsection (hshort.of_sublist (hassigns _ _ hkind).1)]
      split_ifs
      · exact hkey
      · exact List.mem_append_right _ (List.mem_cons_of_mem _ hkey)

/-! ## What silent lines say -/

/-- The section that a line leaves is a part of it. -/
theorem lastSection_sublist (line : Bytes) : (lastSection [] [line]).Sublist line := by
  unfold lastSection lastSection
  cases hkind : lineKind line with
  | skipped => exact List.nil_sublist _
  | header name => exact (sublist_of_lineKind line).1 name hkind
  | assigns key value => exact List.nil_sublist _

/-- Lines without headers leave the section alone. -/
theorem lastSection_of_isHeader {lines : List Bytes} (h : ∀ line ∈ lines, isHeader line = false)
    {currentSection : Bytes} : lastSection currentSection lines = currentSection := by
  induction lines with
  | nil => rfl
  | cons line lines ih =>
    obtain ⟨hline, hlines⟩ := List.forall_mem_cons.mp h
    rw [lastSection]
    cases hkind : lineKind line with
    | skipped => exact ih hlines
    | header name => simp [isHeader, hkind] at hline
    | assigns key value => exact ih hlines

/-- What silent lines assign is empty. -/
theorem snd_of_silent {lines : List Bytes} (h : ∀ line ∈ lines, Silent line)
    (currentSection : Bytes) : ∀ call ∈ assignments currentSection lines, call.2 = [] := by
  induction lines generalizing currentSection with
  | nil => nofun
  | cons line lines ih =>
    obtain ⟨hline, hlines⟩ := List.forall_mem_cons.mp h
    unfold assignments
    split
    · exact ih hlines _
    · exact ih hlines _
    · next key value hkind =>
      exact List.forall_mem_cons.mpr ⟨(silent_iff line).mp hline key value hkind, ih hlines _⟩

/-- Empty values leave a value alone, or take it back. -/
theorem lastValue_of_empty {calls : List (Bytes × Bytes)} (h : ∀ call ∈ calls, call.2 = [])
    {name before : Bytes} (hchange : lastValue calls name before ≠ before) :
    (∃ call ∈ calls, call.1 = name) ∧ lastValue calls name before = [] := by
  rcases lastValue_cases calls name before with heq | ⟨call, hmem, hname, heq⟩
  · exact absurd heq hchange
  · exact ⟨⟨call, hmem, hname⟩, heq.trans (h call hmem)⟩

/-- The first line, and the others in the section that it leaves. -/
theorem said_cons (line : Bytes) (lines : List Bytes) (name : Bytes) :
    said (line :: lines) name =
      lastValue (assignments (lastSection [] [line]) lines) name (said [line] name) := by
  rw [said, ← List.singleton_append, assignments_append, lastValue, List.foldl_append]
  rfl

/-- A line gives a value to its key. -/
theorem exists_of_said_ne_nil {line name : Bytes} (h : said [line] name ≠ []) :
    lineKind line = .assigns name (said [line] name) ∧ lastSection [] [line] = [] := by
  unfold said assignments lastSection at *
  cases hkind : lineKind line with
  | skipped => simp [hkind, assignments, lastValue] at h
  | header section_ => simp [hkind, assignments, lastValue] at h
  | assigns key value =>
    have hname : Config.lineName ⟨.empty, []⟩ key = key := rfl
    simp only [hkind, assignments, lastValue, List.foldl_cons, List.foldl_nil, hname] at h ⊢
    by_cases heq : key = name
    · rw [if_pos heq, heq]
      exact ⟨rfl, rfl⟩
    · rw [if_neg heq] at h
      exact absurd rfl h

/-- A line without a line end gives no value with one, and none to a name with one. -/
theorem not_mem_of_said_ne_nil {line name : Bytes} (hline : LF ∉ line)
    (h : said [line] name ≠ []) : LF ∉ name ∧ LF ∉ said [line] name := by
  obtain ⟨hname, hvalue⟩ := (sublist_of_lineKind line).2 _ _ (exists_of_said_ne_nil h).1
  exact ⟨fun hmem => hline (hname.subset hmem), fun hmem => hline (hvalue.subset hmem)⟩

/-- Silent lines that do not name what the first line gives a value to say nothing more. -/
theorem said_of_silent {line : Bytes} {later : List Bytes} (h : ∀ l ∈ later, Silent l)
    (hnames : ∀ key value, lineKind line = .assigns key value → value ≠ [] →
      ∀ call ∈ assignments [] later, call.1 ≠ key) (name : Bytes) :
    said (line :: later) name = said [line] name := by
  by_contra hne
  rw [said_cons] at hne
  obtain ⟨⟨call, hcall, hname⟩, hempty⟩ := lastValue_of_empty (snd_of_silent h _) hne
  -- what is taken back is what the first line has given
  have hsaid : said [line] name ≠ [] := fun hnil => hne (hempty.trans hnil.symm)
  obtain ⟨hkind, hsection⟩ := exists_of_said_ne_nil hsaid
  rw [hsection] at hcall
  exact hnames name _ hkind hsaid call hcall hname

/-! ## Later lines -/

/-- A text that begins a text of lines and ends in a line end goes beyond the first line. -/
theorem length_lt_of_getLast? {before l rest : Bytes} (hl : LF ∉ l)
    (hbegins : before <+: l ++ LF :: rest) (hlast : before.getLast? = some LF) :
    l.length < before.length := by
  by_contra hle
  have hwithin : before <+: l :=
    List.prefix_of_prefix_length_le hbegins (List.prefix_append ..) (by omega)
  exact hl (hwithin.subset (List.mem_of_getLast? hlast))

/-- Two lines that begin a text are the same. -/
theorem line_unique {line l rest : Bytes} (hline : LF ∉ line) (hl : LF ∉ l)
    (hbegins : line ++ [LF] <+: l ++ LF :: rest) : line = l := by
  have hlonger := length_lt_of_getLast? hl hbegins List.getLast?_concat
  obtain ⟨behind, hbehind⟩ := hbegins
  have hbegins : l ++ [LF] <+: line ++ LF :: behind :=
    ⟨rest, by rw [List.append_assoc, List.singleton_append, ← hbehind]; simp⟩
  have hshorter := length_lt_of_getLast? hline hbegins List.getLast?_concat
  rw [List.length_append, List.length_singleton] at hlonger hshorter
  rw [List.append_assoc] at hbehind
  exact (List.append_inj hbehind (by omega)).1

/-- The lines, each with what stands before it. -/
def splits (before : Bytes) : List Bytes → List (Bytes × Bytes)
  | [] => []
  | line :: lines => (before, line) :: splits (before ++ line ++ [LF]) lines

theorem map_snd_splits (before : Bytes) (lines : List Bytes) :
    (splits before lines).map Prod.snd = lines := by
  induction lines generalizing before with
  | nil => rfl
  | cons line lines ih => rw [splits, List.map_cons, ih]

theorem map_prolonged_splits (text before : Bytes) (lines : List Bytes) :
    (splits before lines).map (fun split => prolonged text split.1 split.2) =
      runOn text before.length lines := by
  induction lines generalizing before with
  | nil => rfl
  | cons line lines ih =>
    have hlen : (before ++ line ++ [LF]).length = before.length + line.length + 1 := by
      rw [List.length_append, List.length_append, List.length_singleton]
    rw [splits, List.map_cons, ih, hlen, runOn, prolonged, substr]

/-- Each line stands behind the lines before it. -/
theorem pairwise_splits (before : Bytes) (lines : List Bytes) :
    (splits before lines).Pairwise fun split split' => split.1.length < split'.1.length := by
  have hbehind : ∀ (lines : List Bytes) (before : Bytes), ∀ split ∈ splits before lines,
      before.length ≤ split.1.length := by
    intro lines
    induction lines with
    | nil => simp [splits]
    | cons line lines ih =>
      intro before
      rw [splits]
      refine List.forall_mem_cons.mpr ⟨le_rfl, fun split hsplit => ?_⟩
      refine le_trans ?_ (ih _ split hsplit)
      rw [List.length_append, List.length_append]
      omega
  induction lines generalizing before with
  | nil => exact .nil
  | cons line lines ih =>
    refine .cons (fun split hsplit => ?_) (ih _)
    have := hbehind lines _ split hsplit
    rw [List.length_append, List.length_append, List.length_singleton] at this
    dsimp only
    omega

/-- The lines of the second part of a text are its later lines. -/
theorem mem_splits_iff {p : Bytes} (hp : Terminated p) {a : Bytes} (ha : a.getLast? = some LF)
    {before line : Bytes} : (before, line) ∈ splits a (linesOf p) ↔
      LaterLine (a ++ p) before line ∧ a.length ≤ before.length := by
  induction hp generalizing a with
  | nil =>
    refine iff_of_false (by simp [linesOf, splits]) ?_
    rintro ⟨⟨hbegins, -, -⟩, hlen⟩
    have := hbegins.length_le
    simp only [List.append_nil, List.length_append, List.length_singleton] at this
    omega
  | @line l rest hl _ ih =>
    have hsplit : a ++ (l ++ LF :: rest) = a ++ l ++ [LF] ++ rest := by simp
    have hlen : (a ++ l ++ [LF]).length = a.length + l.length + 1 := by simp [Nat.add_assoc]
    rw [linesOf_line hl, splits, List.mem_cons, ih List.getLast?_concat, ← hsplit, hlen]
    constructor
    · rintro (heq | ⟨hlater, hlong⟩)
      · obtain ⟨rfl, rfl⟩ := Prod.mk.inj heq
        exact ⟨⟨⟨rest, hsplit.symm⟩, ha, hl⟩, le_rfl⟩
      · exact ⟨hlater, by omega⟩
    · rintro ⟨hlater, hlong⟩
      obtain ⟨hbegins, hbefore, hline⟩ := hlater
      rw [List.append_assoc] at hbegins
      -- what stands before the line goes beyond the first part
      obtain ⟨d, rfl⟩ : a <+: before :=
        List.prefix_of_prefix_length_le (List.prefix_append ..)
          ((List.prefix_append ..).trans hbegins) hlong
      rw [List.append_assoc, List.prefix_append_right_inj] at hbegins
      rcases d.eq_nil_or_concat' with rfl | ⟨d, b, rfl⟩
      · rw [List.append_nil, line_unique hline hl (by simpa using hbegins)]
        exact .inl rfl
      · have hd : (d ++ [b]).getLast? = some LF := by
          rw [← List.append_assoc, List.getLast?_concat] at hbefore
          rw [List.getLast?_concat, hbefore]
        have hbeyond := length_lt_of_getLast? hl ((List.prefix_append ..).trans hbegins) hd
        refine .inr ⟨⟨?_, hbefore, hline⟩, ?_⟩
        · rwa [List.append_assoc, List.append_assoc, List.prefix_append_right_inj]
        · rw [List.length_append] at hbeyond ⊢
          simp only [List.length_append] at hbeyond ⊢
          omega

/-- The later lines of a text are the lines of what is behind the first one. -/
theorem laterLine_iff {l rest : Bytes} (hl : LF ∉ l) (hrest : Terminated rest)
    {before line : Bytes} :
    LaterLine (l ++ LF :: rest) before line ↔
      (before, line) ∈ splits (l ++ [LF]) (linesOf rest) := by
  have htext : l ++ [LF] ++ rest = l ++ LF :: rest := by simp
  rw [mem_splits_iff hrest List.getLast?_concat, htext, and_iff_left_of_imp]
  intro hlater
  have hbegins := ((List.prefix_append ..).trans (List.prefix_append ..)).trans hlater.text
  have := length_lt_of_getLast? hl hbegins hlater.before
  rw [List.length_append, List.length_singleton]
  omega

theorem forall_laterLine_iff {l rest : Bytes} (hl : LF ∉ l) (hrest : Terminated rest)
    {p : Bytes → Prop} :
    (∀ before line, LaterLine (l ++ LF :: rest) before line → p line) ↔
      ∀ line ∈ linesOf rest, p line := by
  conv_rhs => rw [← map_snd_splits (l ++ [LF]) (linesOf rest), List.forall_mem_map]
  simp only [laterLine_iff hl hrest, Prod.forall]

theorem forall_prolonged_iff {l rest : Bytes} (hl : LF ∉ l) (hrest : Terminated rest)
    {p : Bytes → Prop} :
    (∀ before line, LaterLine (l ++ LF :: rest) before line →
      p (prolonged (l ++ LF :: rest) before line)) ↔
      ∀ run ∈ runOn (l ++ LF :: rest) (l.length + 1) (linesOf rest), p run := by
  have hlen : (l ++ [LF]).length = l.length + 1 := by simp
  rw [← hlen, ← map_prolonged_splits, List.forall_mem_map]
  simp only [laterLine_iff hl hrest, Prod.forall]

theorem pairwise_prolonged_iff {l rest : Bytes} (hl : LF ∉ l) (hrest : Terminated rest)
    {r : Bytes → Bytes → Prop} :
    (∀ before line before' line', LaterLine (l ++ LF :: rest) before line →
      LaterLine (l ++ LF :: rest) before' line' → before.length < before'.length →
        r (prolonged (l ++ LF :: rest) before line) (prolonged (l ++ LF :: rest) before' line')) ↔
      (runOn (l ++ LF :: rest) (l.length + 1) (linesOf rest)).Pairwise r := by
  have hlen : (l ++ [LF]).length = l.length + 1 := by simp
  rw [← hlen, ← map_prolonged_splits, List.pairwise_map]
  have hbehind := pairwise_splits (l ++ [LF]) (linesOf rest)
  simp only [laterLine_iff hl hrest]
  constructor
  · exact fun h => hbehind.imp_of_mem fun hsplit hsplit' hlt => h _ _ _ _ hsplit hsplit' hlt
  · intro h before line before' line' hsplit hsplit' hlt
    obtain ⟨i, hi, heq⟩ := List.getElem_of_mem hsplit
    obtain ⟨j, hj, heq'⟩ := List.getElem_of_mem hsplit'
    -- the line before which less stands is the earlier one
    rcases lt_trichotomy i j with hij | rfl | hij
    · have hr := List.pairwise_iff_getElem.mp h i j hi hj hij
      rwa [heq, heq'] at hr
    · rw [heq] at heq'
      obtain ⟨rfl, rfl⟩ := Prod.mk.inj heq'
      exact absurd hlt (lt_irrefl _)
    · have hlt' := List.pairwise_iff_getElem.mp hbehind j i hj hi hij
      rw [heq, heq'] at hlt'
      exact absurd hlt (lt_asymm hlt')

/-- The condition on the lines of the text, and on the strings that run on. -/
theorem firstLineOnly_iff {l rest : Bytes} (hl : LF ∉ l) (hrest : Terminated rest) :
    FirstLineOnly (l ++ LF :: rest) ↔
      (∀ line ∈ linesOf rest, Silent line) ∧
      (∀ run ∈ runOn (l ++ LF :: rest) (l.length + 1) (linesOf rest), Silent run) ∧
      ∀ key value, lineKind l = .assigns key value → value ≠ [] →
        Short (l ++ LF :: rest) ∧ ∀ call ∈ assignments [] (linesOf rest), call.1 ≠ key := by
  rw [← forall_laterLine_iff hl hrest, ← forall_prolonged_iff hl hrest]
  constructor
  · rintro ⟨hlater, hfirst⟩
    exact ⟨fun _ _ h => (hlater _ _ h).1, fun _ _ h => (hlater _ _ h).2, hfirst l rest rfl hl⟩
  · rintro ⟨hlines, hruns, hfirst⟩
    refine ⟨fun _ _ h => ⟨hlines _ _ h, hruns _ _ h⟩, fun line behind htext hline => ?_⟩
    have hbegins : line ++ [LF] <+: l ++ LF :: rest := by
      rw [htext]
      exact ⟨behind, by simp⟩
    obtain rfl := line_unique hline hl hbegins
    obtain rfl : rest = behind := by simpa using htext
    exact hfirst

theorem runsApart_iff {l rest : Bytes} (hl : LF ∉ l) (hrest : Terminated rest) :
    RunsApart (l ++ LF :: rest) ↔
      (∀ run ∈ runOn (l ++ LF :: rest) (l.length + 1) (linesOf rest), isHeader run = false) ∧
      (runOn (l ++ LF :: rest) (l.length + 1) (linesOf rest)).Pairwise fun run run' =>
        lineOne run = lineOne run' → Silent run ∨ 61 ∈ lineOne run := by
  rw [← forall_prolonged_iff hl hrest, ← pairwise_prolonged_iff hl hrest]
  exact ⟨fun h => ⟨h.header, h.again⟩, fun h => ⟨h.1, h.2⟩⟩

/-! ## Strings that run on -/

/-- Behind the first line, every string has a line end, and every line goes on behind its own. -/
theorem mem_runOn {p : Bytes} (hp : Terminated p) {a : Bytes} (ha : a ≠ []) :
    (∀ run ∈ runOn (a ++ p) a.length (linesOf p), LF ∈ run) ∧
      ∀ line ∈ linesOf p, ∃ run ∈ runOn (a ++ p) a.length (linesOf p),
        ∃ more, run = line ++ LF :: more := by
  induction hp generalizing a with
  | nil => simp [linesOf, runOn]
  | @line l rest hl _ ih =>
    have hpos := List.length_pos_iff.mpr ha
    have hrun : substr (a ++ (l ++ LF :: rest)) a.length (a.length + l.length) =
        l ++ LF :: rest.take (a.length - 1) := by
      rw [substr, List.drop_left, List.take_append, List.take_of_length_le (by omega),
        show a.length + l.length - l.length = a.length - 1 + 1 by omega, List.take_succ_cons]
    have hsplit : a ++ (l ++ LF :: rest) = a ++ l ++ [LF] ++ rest := by simp
    have hlen : (a ++ l ++ [LF]).length = a.length + l.length + 1 := by simp [Nat.add_assoc]
    obtain ⟨hends, hgoes⟩ := ih (a := a ++ l ++ [LF]) (by simp)
    rw [← hsplit, hlen] at hends hgoes
    rw [linesOf_line hl, runOn, hrun]
    constructor
    · exact List.forall_mem_cons.mpr ⟨by simp, hends⟩
    · refine List.forall_mem_cons.mpr ⟨⟨_, List.mem_cons_self, _, rfl⟩, fun line hline => ?_⟩
      obtain ⟨run, hmem, hmore⟩ := hgoes line hline
      exact ⟨run, List.mem_cons_of_mem _ hmem, hmore⟩

theorem runOn_sublist (text : Bytes) (offset : Nat) (lines : List Bytes) :
    ∀ l ∈ runOn text offset lines, l.Sublist text := by
  induction lines generalizing offset with
  | nil => nofun
  | cons line lines ih => exact List.forall_mem_cons.mpr ⟨substr_sublist .., ih _⟩

/-- The later strings of a short text. -/
theorem short_of_mem_runOn {l rest : Bytes} (hrest : Terminated rest)
    (hshort : Short (l ++ LF :: rest)) :
    ∀ run ∈ runOn (l ++ LF :: rest) (l.length + 1) (linesOf rest), Short run ∧ LF ∈ run := by
  intro run hrun
  refine ⟨hshort.of_sublist (runOn_sublist _ _ _ run hrun), ?_⟩
  have hends := (mem_runOn hrest (a := l ++ [LF]) (by simp)).1
  have hsplit : l ++ [LF] ++ rest = l ++ LF :: rest := by simp
  have hlen : (l ++ [LF]).length = l.length + 1 := by simp
  rw [hsplit, hlen] at hends
  exact hends run hrun

/-- The section that the first line of a short text leaves is short. -/
theorem short_lastSection {l rest : Bytes} (hshort : Short (l ++ rest)) :
    Short (lastSection [] [l]) :=
  hshort.of_sublist ((lastSection_sublist l).trans (List.sublist_append_left ..))

/-- The first string is the first line. -/
theorem runOn_zero (l rest : Bytes) (lines : List Bytes) :
    runOn (l ++ LF :: rest) 0 (l :: lines) =
      l :: runOn (l ++ LF :: rest) (l.length + 1) lines := by
  rw [runOn, substr, List.drop_zero, Nat.zero_add, List.take_left]

/-! ## When the loads agree -/

/-- A text of which only the first line gives a value is read alike. -/
theorem FirstLineOnly.said_eq {text : Bytes} (h : Terminated text) (honly : FirstLineOnly text)
    (name : Bytes) : said (runOn text 0 (linesOf text)) name = said (linesOf text) name := by
  cases h with
  | nil => rfl
  | @line l rest hl hrest =>
    obtain ⟨hlines, hruns, hfirst⟩ := (firstLineOnly_iff hl hrest).mp honly
    rw [linesOf_line hl, runOn_zero,
      said_of_silent hlines fun key value hkind hvalue => (hfirst key value hkind hvalue).2]
    refine said_of_silent hruns (fun key value hkind hvalue call hcall hname => ?_) name
    -- the names of the later strings have line ends, and the key of the first line has none
    have hshort := (hfirst key value hkind hvalue).1
    rcases mem_assignments (short_of_mem_runOn hrest hshort) [] ⟨List.not_mem_nil, by decide⟩ call
      hcall with hLF | hLF
    · rw [hname] at hLF
      exact hl (((sublist_of_lineKind l).2 key value hkind).1.subset hLF)
    · rw [snd_of_silent hruns [] call hcall] at hLF
      cases hLF

/-- Where a short text is read alike, the later strings leave what the first line says. -/
theorem said_eq_of_agree {l rest : Bytes} (hl : LF ∉ l) (hrest : Terminated rest)
    (hshort : Short (l ++ LF :: rest))
    (hagree : ∀ name, said (runOn (l ++ LF :: rest) 0 (l :: linesOf rest)) name =
      said (l :: linesOf rest) name) (name : Bytes) :
    said (runOn (l ++ LF :: rest) 0 (l :: linesOf rest)) name = said [l] name := by
  -- the file assigns nothing with a line end
  have hlines : ∀ line ∈ l :: linesOf rest, LF ∉ line :=
    List.forall_mem_cons.mpr ⟨hl, not_mem_of_mem_linesOf hrest⟩
  have hfile := not_mem_assignments hlines [] List.not_mem_nil
  have hline : ∀ call ∈ assignments [] [l], LF ∉ call.1 ∧ LF ∉ call.2 :=
    not_mem_assignments (by simpa using hl) [] List.not_mem_nil
  -- behind the first line, the buffer assigns nothing without
  have hbuffer := mem_assignments (short_of_mem_runOn hrest hshort) (lastSection [] [l])
    (short_lastSection hshort)
  have hsame := hagree name
  rw [runOn_zero, said_cons] at hsame ⊢
  rcases lastValue_cases (assignments (lastSection [] [l])
    (runOn (l ++ LF :: rest) (l.length + 1) (linesOf rest))) name (said [l] name) with
    hkeep | ⟨call, hmem, hname, hvalue⟩
  · exact hkeep
  · rw [hvalue] at hsame ⊢
    rcases hbuffer call hmem with hLF | hLF
    · -- neither the file nor the first line has a name with a line end
      have hnothing : ∀ lines, (∀ call ∈ assignments [] lines, LF ∉ call.1 ∧ LF ∉ call.2) →
          said lines name = [] := by
        intro lines hlines
        rcases lastValue_cases (assignments [] lines) name [] with h | ⟨call', hmem', hname', -⟩
        · exact h
        · rw [hname, ← hname'] at hLF
          exact absurd hLF (hlines call' hmem').1
      rw [hsame, hnothing _ hfile, hnothing _ hline]
    · -- no value of the file has a line end
      rcases lastValue_cases (assignments [] (l :: linesOf rest)) name [] with
        h | ⟨call', hmem', -, h⟩
      · rw [hsame, said, h] at hLF
        cases hLF
      · rw [hsame, said, h] at hLF
        exact absurd hLF (hfile call' hmem').2

/-- Strings that leave what the first line says, and do not take anything back, are silent. -/
theorem silent_of_said_eq {l : Bytes} {runs : List Bytes} (hl : LF ∉ l)
    (hsection : Short (lastSection [] [l])) (hruns : ∀ run ∈ runs, Short run ∧ LF ∈ run)
    (hheader : ∀ run ∈ runs, isHeader run = false)
    (hagain : runs.Pairwise fun run run' =>
      lineOne run = lineOne run' → Silent run ∨ 61 ∈ lineOne run)
    (hsame : ∀ name, said (l :: runs) name = said [l] name) : ∀ run ∈ runs, Silent run := by
  intro run hrun
  by_contra hloud
  have hbuffer := mem_assignments hruns _ hsection
  obtain ⟨key, value, hkind, hvalue⟩ : ∃ key value, lineKind run = .assigns key value ∧
      value ≠ [] := by
    rw [silent_iff] at hloud
    push Not at hloud
    exact hloud
  obtain ⟨before, after, rfl⟩ := List.append_of_mem hrun
  -- what the strings assign, from the one that gives a value on
  have hsplit : assignments (lastSection [] [l]) (before ++ run :: after) =
      assignments (lastSection [] [l]) before ++
        (Config.lineName ⟨.empty, lastSection [] [l]⟩ key, value) ::
          assignments (lastSection [] [l]) after := by
    rw [assignments_append, lastSection_of_isHeader fun line hline =>
      hheader line (List.mem_append_left _ hline), assignments, hkind]
  have hlast := hsame (Config.lineName ⟨.empty, lastSection [] [l]⟩ key)
  rw [hsplit] at hbuffer
  rw [said_cons l (before ++ run :: after), hsplit, lastValue, List.foldl_append, List.foldl_cons,
    if_pos rfl, ← lastValue] at hlast
  rcases lastValue_cases (assignments (lastSection [] [l]) after)
    (Config.lineName ⟨.empty, lastSection [] [l]⟩ key) value with heq | ⟨call, hcall, hname, heq⟩
  · -- the value stays
    rw [heq] at hlast
    have hno := not_mem_of_said_ne_nil hl (hlast ▸ hvalue)
    rw [← hlast] at hno
    exact (hbuffer _ (List.mem_append_right _ List.mem_cons_self)).elim hno.1 hno.2
  · -- a later string has the last word
    rw [heq] at hlast
    have hLF := hbuffer call (List.mem_append_right _ (List.mem_cons_of_mem _ hcall))
    have hafter : ∀ run' ∈ after, isHeader run' = false := fun run' hrun' =>
      hheader run' (List.mem_append_right _ (List.mem_cons_of_mem _ hrun'))
    obtain ⟨run', hrun', key', value', hkind', rfl⟩ := exists_of_mem_assignments hafter hcall
    have hkeys : Short key ∧ Short key' :=
      ⟨(hruns run hrun).1.of_sublist ((sublist_of_lineKind run).2 key value hkind).1,
        (hruns run' (List.mem_append_right _ (List.mem_cons_of_mem _ hrun'))).1.of_sublist
          ((sublist_of_lineKind run').2 key' value' hkind').1⟩
    obtain rfl := key_eq_of_lineName hsection hkeys.2 hkeys.1 hname
    by_cases hmem : LF ∈ key'
    · -- the two strings have the same first line
      have hrest := (List.pairwise_append.mp hagain).2.1
      obtain ⟨hone, hno⟩ := lineOne_of_key hkind hmem
      have hsame' := hone.trans (lineOne_of_key hkind' hmem).1.symm
      exact ((List.pairwise_cons.mp hrest).1 run' hrun' hsame').elim hloud hno
    · have hLF' : LF ∈ value' := by
        refine hLF.resolve_left fun hnameLF => not_mem_lineName ?_ hmem hnameLF
        exact fun hin => hl ((lastSection_sublist l).subset hin)
      have hlast : value' = said [l] (Config.lineName ⟨.empty, lastSection [] [l]⟩ key') := hlast
      have hne : value' ≠ [] := List.ne_nil_of_mem hLF'
      have hno := (not_mem_of_said_ne_nil hl (hlast ▸ hne)).2
      rw [← hlast] at hno
      exact hno hLF'

/-- A short text that is read alike and takes nothing back has one line that gives a value. -/
theorem firstLineOnly_of_said_eq {text : Bytes} (h : Terminated text) (hshort : Short text)
    (hapart : RunsApart text)
    (hagree : ∀ name, said (runOn text 0 (linesOf text)) name = said (linesOf text) name) :
    FirstLineOnly text := by
  cases h with
  | nil =>
    constructor
    · intro before line hlater
      simpa using hlater.text.length_le
    · intro line behind htext
      simp at htext
  | @line l rest hl hrest =>
    obtain ⟨hheader, hagain⟩ := (runsApart_iff hl hrest).mp hapart
    rw [linesOf_line hl] at hagree
    have hsaid := said_eq_of_agree hl hrest hshort hagree
    have hruns : ∀ run ∈ runOn (l ++ LF :: rest) (l.length + 1) (linesOf rest), Silent run := by
      refine silent_of_said_eq hl (short_lastSection hshort) (short_of_mem_runOn hrest hshort)
        hheader hagain fun name => ?_
      rw [← hsaid name, runOn_zero]
    have hlines : ∀ line ∈ linesOf rest, Silent line := by
      intro line hline
      have hgoes := (mem_runOn hrest (a := l ++ [LF]) (by simp)).2 line hline
      have hsplit : l ++ [LF] ++ rest = l ++ LF :: rest := by simp
      have hlen : (l ++ [LF]).length = l.length + 1 := by simp
      rw [hsplit, hlen] at hgoes
      obtain ⟨run, hrun, more, rfl⟩ := hgoes
      exact silent_of_silent_append (hruns _ hrun) (hheader _ hrun)
    refine (firstLineOnly_iff hl hrest).mpr ⟨hlines, hruns, fun key value hkind hvalue => ?_⟩
    refine ⟨hshort, fun call hcall hname => hvalue ?_⟩
    -- a later line would take the value back
    have hkey : said [l] key = value := by
      simp [said, assignments, hkind, lastValue, Config.lineName]
    have hsection : lastSection [] [l] = [] := by
      rw [lastSection, hkind]
      rfl
    have hlast := (hagree key).symm.trans (hsaid key)
    rw [said_cons, hsection, hkey,
      lastValue_of_named ⟨call, hcall, hname⟩ value []] at hlast
    rw [← hlast]
    by_contra hne
    exact hne (lastValue_of_empty (snd_of_silent hlines []) hne).2

/-- A text whose lines have line ends is read alike from a file and from a buffer where only its
first line gives a value. A short text in which no later line takes back what another one says is
read alike only there. -/
theorem loadsAgree_iff (text : Bytes) (h : text = [] ∨ text.getLast? = some LF) :
    (FirstLineOnly text → LoadsAgree text) ∧
      (Short text → RunsApart text → (LoadsAgree text ↔ FirstLineOnly text)) := by
  have hterminated := terminated_of_last h
  have honly : FirstLineOnly text → LoadsAgree text := fun honly =>
    (loadsAgree_iff_said hterminated).mpr fun name => honly.said_eq hterminated name
  refine ⟨honly, fun hshort hapart => ⟨fun hagree => ?_, honly⟩⟩
  exact firstLineOnly_of_said_eq hterminated hshort hapart
    ((loadsAgree_iff_said hterminated).mp hagree)

/-- A value, a comment, a blank line, a section and a key without a value. -/
theorem loadsAgree_comment : LoadsAgree (bytes "a=1\n;b=2\n\n[c]\nd\n") := by
  have hl : LF ∉ bytes "a=1" := by decide
  have hrest : Terminated (bytes ";b=2\n\n[c]\nd\n") := terminated_of_last (.inr rfl)
  have honly : FirstLineOnly (bytes "a=1\n;b=2\n\n[c]\nd\n") := by
    refine (firstLineOnly_iff hl hrest).mpr ⟨by decide, by decide, fun key value hkind _ => ?_⟩
    obtain ⟨rfl, rfl⟩ : bytes "a" = key ∧ bytes "1" = value := LineKind.assigns.inj hkind
    exact ⟨by decide, by decide⟩
  have hapart : RunsApart (bytes "a=1\n;b=2\n\n[c]\nd\n") :=
    (runsApart_iff hl hrest).mpr ⟨by decide, by decide⟩
  exact ((loadsAgree_iff _ (.inr rfl)).2 (by decide) hapart).mpr honly

/-- Two lines with values. -/
theorem not_loadsAgree_two_lines : ¬ LoadsAgree (bytes "a=1\nb=2\n") := by
  intro hagree
  have hsaid := (loadsAgree_iff_said (terminated_of_last (.inr rfl))).mp hagree (bytes "b")
  exact absurd hsaid (by decide)

end MosqCluster
