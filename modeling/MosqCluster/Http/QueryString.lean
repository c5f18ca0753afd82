import MosqCluster.Http.Parser.Types

/-!
# Query strings

A query string is a list of pieces between ampersands, each a name with a value behind an equals
sign, or a name alone. The states of the query string read a name up to the next equals sign and a
value up to the next ampersand, so that a name alone takes what follows it as a part of the name,
and is lost at the end of the target.

## Main definitions

* `decodeQuery`: what a query string says;
* `readPairs`: the pairs that the states of the query string read;
* `Readable`: the names alone come last and add nothing.

## Main results

* `assign_readPairs_iff`: the parser reads what the query string says if it is readable, and only
  then.
-/

namespace MosqCluster.Http

/-- Between a name and its value. -/
abbrev EQUALS : UInt8 := '='

/-- Between two pieces. -/
abbrev AMPERSAND : UInt8 := '&'

/-- The map `queries_` after more pairs, of which a later one overwrites an earlier one. -/
def assign (queries : Bytes → Option Bytes) (pairs : List (Bytes × Bytes)) :
    Bytes → Option Bytes :=
  pairs.foldl (fun queries pair => Function.update queries pair.1 (some pair.2)) queries

/-! ## What a query string says -/

/-- The name and the value of a piece: the value is what is behind its first equals sign. -/
def splitPiece (piece : Bytes) : Bytes × Bytes :=
  (piece.takeWhile (· ≠ EQUALS), (piece.dropWhile (· ≠ EQUALS)).drop 1)

/-- What a query string says. -/
def decodeQuery (q : Bytes) : Bytes → Option Bytes :=
  assign (fun _ => none) (((q.splitOn AMPERSAND).filter (· ≠ [])).map splitPiece)

/-! ## What the parser reads -/

/-- The pairs that are read from a query string, in a name or in the value of one. -/
def readPairs : Bytes → Option Bytes → Bytes → List (Bytes × Bytes)
  | _, none, [] => []
  | name, some value, [] => [(name, value)]
  | name, none, ch :: q =>
    if ch = EQUALS then readPairs name (some []) q else readPairs (name ++ [ch]) none q
  | name, some value, ch :: q =>
    if ch = AMPERSAND then (name, value) :: readPairs [] none q
    else readPairs name (some (value ++ [ch])) q

/-- The pieces with an equals sign that come before all others. -/
def namedPieces (q : Bytes) : List Bytes := (q.splitOn AMPERSAND).takeWhile (EQUALS ∈ ·)

/-- The pieces behind them. -/
def laterPieces (q : Bytes) : List Bytes := (q.splitOn AMPERSAND).dropWhile (EQUALS ∈ ·)

/-- Behind the first name alone there are no values, and the names alone have been given the empty
value before. -/
def Readable (q : Bytes) : Prop :=
  ∀ piece ∈ laterPieces q, EQUALS ∉ piece ∧
    (piece ≠ [] → assign (fun _ => none) ((namedPieces q).map splitPiece) piece = some [])

instance (q : Bytes) : Decidable (Readable q) := inferInstanceAs (Decidable (∀ _ ∈ _, _))

variable {queries : Bytes → Option Bytes} {pairs : List (Bytes × Bytes)} {pieces : List Bytes}
  {name value piece q k : Bytes}

/-! ## Maps of queries -/

@[simp]
theorem assign_nil : assign queries [] = queries := rfl

@[simp]
theorem assign_append (pairs' : List (Bytes × Bytes)) :
    assign queries (pairs ++ pairs') = assign (assign queries pairs) pairs' :=
  List.foldl_append

/-- The names without a value are those that no pair has. -/
theorem assign_eq_none_iff :
    assign queries pairs k = none ↔ queries k = none ∧ ∀ pair ∈ pairs, pair.1 ≠ k := by
  induction pairs generalizing queries with
  | nil => simp [assign]
  | cons pair pairs ih =>
    rw [assign, List.foldl_cons]
    refine ih.trans ?_
    rcases eq_or_ne pair.1 k with rfl | hne
    · simp
    · simp [Function.update_of_ne hne.symm, hne]

/-- Names that get the empty value. -/
theorem assign_empty (names : List Bytes) :
    assign queries (names.map fun name => (name, [])) k =
      if k ∈ names then some [] else queries k := by
  induction names generalizing queries with
  | nil => rfl
  | cons name names ih =>
    rw [List.map_cons, assign, List.foldl_cons]
    refine ih.trans ?_
    by_cases hk : k = name
    · simp [hk]
    · simp [hk]

/-- They change nothing if they have it already. -/
theorem assign_empty_eq_iff (names : List Bytes) :
    assign queries (names.map fun name => (name, [])) = queries ↔
      ∀ name ∈ names, queries name = some [] := by
  constructor
  · intro heq name hname
    rw [← heq, assign_empty, if_pos hname]
  · intro hnames
    ext1 k
    rw [assign_empty]
    split_ifs with hk
    · exact (hnames k hk).symm
    · rfl

/-! ## Pieces -/

/-- The pairs that are read from the pieces, behind the beginning of a name. -/
def piecePairs : Bytes → List Bytes → List (Bytes × Bytes)
  | _, [] => []
  | name, piece :: pieces =>
    if EQUALS ∈ piece then
      (name ++ (splitPiece piece).1, (splitPiece piece).2) :: piecePairs [] pieces
    else piecePairs (name ++ piece ++ [AMPERSAND]) pieces

/-- The pairs are read piece by piece. -/
theorem readPairs_eq (name value : Bytes) (hq : q.splitOn AMPERSAND = piece :: pieces) :
    readPairs name none q = piecePairs name (piece :: pieces) ∧
      readPairs name (some value) q = (name, value ++ piece) :: piecePairs [] pieces := by
  induction q generalizing name value piece pieces with
  | nil =>
    obtain ⟨rfl, rfl⟩ := List.cons.inj (hq.symm.trans (List.splitOn_nil _))
    simp [readPairs, piecePairs]
  | cons ch q ih =>
    obtain ⟨piece', pieces', hq'⟩ := List.exists_cons_of_ne_nil (List.splitOn_ne_nil AMPERSAND q)
    rw [List.splitOn_cons_eq_if_modifyHead, hq', List.modifyHead_cons] at hq
    by_cases hand : ch = AMPERSAND
    · -- An ampersand ends the piece, and belongs to a name.
      subst hand
      rw [if_pos (beq_self_eq_true _)] at hq
      obtain ⟨rfl, rfl⟩ := List.cons.inj hq
      refine ⟨?_, ?_⟩
      · rw [readPairs, if_neg (by decide), (ih _ [] hq').1]
        simp [piecePairs]
      · rw [readPairs, if_pos rfl, (ih _ [] hq').1, List.append_nil]
    · rw [if_neg (by simpa using hand)] at hq
      obtain ⟨rfl, rfl⟩ := List.cons.inj hq
      refine ⟨?_, ?_⟩
      · by_cases hequals : ch = EQUALS
        · -- The first equals sign of the piece.
          subst hequals
          rw [readPairs, if_pos rfl, (ih _ _ hq').2, piecePairs]
          simp [splitPiece]
        · rw [readPairs, if_neg hequals, (ih _ [] hq').1, piecePairs, piecePairs]
          simp [splitPiece, hequals, Ne.symm hequals]
      · rw [readPairs, if_neg hand, (ih _ _ hq').2, List.append_assoc, List.singleton_append]

/-- A piece with an equals sign is read as it is said. -/
theorem piecePairs_named (hnamed : ∀ piece ∈ pieces, EQUALS ∈ piece) (later : List Bytes) :
    piecePairs [] (pieces ++ later) = pieces.map splitPiece ++ piecePairs [] later := by
  induction pieces with
  | nil => rfl
  | cons piece pieces ih =>
    rw [List.cons_append, piecePairs, if_pos (hnamed piece List.mem_cons_self),
      ih fun piece h => hnamed piece (List.mem_cons_of_mem _ h)]
    rfl

/-- Names alone are not read. -/
theorem piecePairs_bare (hbare : ∀ piece ∈ pieces, EQUALS ∉ piece) :
    piecePairs name pieces = [] := by
  induction pieces generalizing name with
  | nil => rfl
  | cons piece pieces ih =>
    rw [piecePairs, if_neg (hbare piece List.mem_cons_self)]
    exact ih fun piece h => hbare piece (List.mem_cons_of_mem _ h)

/-- A name with an ampersand is read, if there is a value behind it. -/
theorem exists_ampersand (hname : AMPERSAND ∈ name) (hpieces : ∃ piece ∈ pieces, EQUALS ∈ piece) :
    ∃ pair ∈ piecePairs name pieces, AMPERSAND ∈ pair.1 := by
  induction pieces generalizing name with
  | nil => simp at hpieces
  | cons piece pieces ih =>
    rw [piecePairs]
    split_ifs with hequals
    · exact ⟨_, List.mem_cons_self, List.mem_append_left _ hname⟩
    · refine ih (by simp) ?_
      simpa [hequals] using hpieces

/-- A name alone has the empty value. -/
theorem splitPiece_bare (hbare : EQUALS ∉ piece) : splitPiece piece = (piece, []) := by
  have hne : ∀ ch ∈ piece, decide (ch ≠ EQUALS) = true := fun ch hmem =>
    decide_eq_true fun heq => hbare (heq ▸ hmem)
  rw [splitPiece, List.takeWhile_eq_self_iff.mpr hne, List.dropWhile_eq_nil_iff.mpr hne,
    List.drop_nil]

/-- There is no ampersand in a piece. -/
theorem ampersand_notMem_piece (hpiece : piece ∈ q.splitOn AMPERSAND) : AMPERSAND ∉ piece := by
  induction q generalizing piece with
  | nil => simp_all
  | cons ch q ih =>
    obtain ⟨piece', pieces', hq⟩ := List.exists_cons_of_ne_nil (List.splitOn_ne_nil AMPERSAND q)
    rw [List.splitOn_cons_eq_if_modifyHead, hq, List.modifyHead_cons] at hpiece
    rw [hq] at ih
    split_ifs at hpiece with hand
    · rcases List.mem_cons.mp hpiece with rfl | hpiece
      · simp
      · exact ih hpiece
    · rcases List.mem_cons.mp hpiece with rfl | hpiece
      · simpa [eq_comm, show ch ≠ AMPERSAND by simpa using hand] using ih List.mem_cons_self
      · exact ih (List.mem_cons_of_mem _ hpiece)

/-! ## Readable query strings -/

/-- What is read and what is said differ only behind the first name alone. -/
theorem readPairs_and_decodeQuery (q : Bytes) :
    readPairs [] none q = (namedPieces q).map splitPiece ++ piecePairs [] (laterPieces q) ∧
      decodeQuery q = assign (assign (fun _ => none) ((namedPieces q).map splitPiece))
        (((laterPieces q).filter (· ≠ [])).map splitPiece) := by
  have hnamed : ∀ piece ∈ namedPieces q, EQUALS ∈ piece := fun piece hpiece => by
    simpa using List.mem_takeWhile_imp hpiece
  have hpieces : q.splitOn AMPERSAND = namedPieces q ++ laterPieces q :=
    (List.takeWhile_append_dropWhile ..).symm
  refine ⟨?_, ?_⟩
  · obtain ⟨piece, pieces, hq⟩ := List.exists_cons_of_ne_nil (List.splitOn_ne_nil AMPERSAND q)
    rw [(readPairs_eq [] [] hq).1, ← hq, hpieces, piecePairs_named hnamed]
  · -- A piece with an equals sign is not empty.
    have hkept : (namedPieces q).filter (· ≠ []) = namedPieces q :=
      List.filter_eq_self.mpr fun piece hpiece =>
        decide_eq_true (List.ne_nil_of_mem (hnamed piece hpiece))
    rw [decodeQuery, hpieces, List.filter_append, hkept, List.map_append, assign_append]

/-- The parser reads what the query string says if it is readable, and only then. -/
theorem assign_readPairs_iff (q : Bytes) :
    assign (fun _ => none) (readPairs [] none q) = decodeQuery q ↔ Readable q := by
  obtain ⟨hread, hdecode⟩ := readPairs_and_decodeQuery q
  rw [hread, hdecode, assign_append]
  by_cases hbare : ∀ piece ∈ laterPieces q, EQUALS ∉ piece
  · -- The names alone are lost, and had to add nothing.
    have hsplit : ((laterPieces q).filter (· ≠ [])).map splitPiece =
        ((laterPieces q).filter (· ≠ [])).map fun name => (name, []) :=
      List.map_congr_left fun piece hpiece =>
        splitPiece_bare (hbare piece (List.mem_filter.mp hpiece).1)
    rw [piecePairs_bare hbare, assign_nil, hsplit, eq_comm, assign_empty_eq_iff]
    simp +contextual [Readable, hbare]
  · -- A value behind a name alone is read for a name with an ampersand.
    refine iff_of_false (fun heq => ?_) fun hreadable => hbare fun piece h => (hreadable piece h).1
    cases hlater : laterPieces q with
    | nil => simp [hlater] at hbare
    | cons piece pieces =>
      have hfirst : EQUALS ∉ piece := by
        have hnot := List.head?_dropWhile_not (EQUALS ∈ ·) (q.splitOn AMPERSAND)
        rw [← laterPieces, hlater] at hnot
        simpa using hnot
      have hlast : ∃ piece ∈ pieces, EQUALS ∈ piece := by
        simpa [hlater, hfirst] using hbare
      have hname : AMPERSAND ∈ [] ++ piece ++ [AMPERSAND] := by simp
      obtain ⟨pair, hpair, hand⟩ := exists_ampersand hname hlast
      have hnone : decodeQuery q pair.1 = none := by
        refine assign_eq_none_iff.mpr ⟨rfl, ?_⟩
        simp only [List.mem_map, List.mem_filter, forall_exists_index, and_imp]
        rintro _ piece hpiece - rfl heq
        have hpart : AMPERSAND ∈ piece := (List.takeWhile_sublist _).subset (heq ▸ hand)
        exact ampersand_notMem_piece hpiece hpart
      rw [hdecode, ← heq, hlater, piecePairs, if_neg hfirst] at hnone
      exact (assign_eq_none_iff.mp hnone).2 pair hpair rfl

example : Readable (bytes "x=1&y=&y&") := by decide +kernel

example : ¬ Readable (bytes "x=1&&y=2") := by decide +kernel

end MosqCluster.Http
