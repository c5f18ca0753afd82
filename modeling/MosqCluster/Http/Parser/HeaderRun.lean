import MosqCluster.Http.Parser.MainLoop

/-!
# Runs within the header limit

Up to the end of the headers every byte is counted, and one too many is an error. A run over bytes
that the switch takes one at a time goes on if they fit, and fails if they do not.

## Main definitions

* `Goes`: the loop goes on over some bytes to a state, if they fit;
* `quietPath`: parser records that a string leads through without a mark or a callback.

## Main results

* `Goes.trans`: such runs compose;
* `goes_quietPath`: the run along a path of records.
-/

namespace MosqCluster.Http

variable {l l' l'' : Loop} {parser parser' : HttpParser} {ch : UInt8} {tail bs cs : Bytes}

/-- The loop has been left with an error. -/
def Outcome.Fails (o : Outcome) : Prop := ∃ l n, o = .returned l n ∧ l.parser.httpErrno ≠ .OK

/-- From `l` the loop goes on over the bytes `bs` to `l'`, if the header limit leaves room for
them, and fails if it does not. -/
structure Goes (l : Loop) (bs : Bytes) (l' : Loop) : Prop where
  nread : l.parser.nread.toNat + bs.length ≤ httpMaxHeaderSize →
    l'.parser.nread.toNat = l.parser.nread.toNat + bs.length
  goes : l.parser.nread.toNat + bs.length ≤ httpMaxHeaderSize →
    ∀ more, mainLoop l 0 (bs ++ more) = mainLoop l' 0 more
  overflows : l.parser.nread.toNat ≤ httpMaxHeaderSize →
    httpMaxHeaderSize < l.parser.nread.toNat + bs.length →
    ∀ more, (mainLoop l 0 (bs ++ more)).Fails

/-- One more byte of a header that is not too long. -/
theorem iteration_of_room (ch : UInt8) (tail : List UInt8) (hheader : parser.state.parsingHeader)
    (hroom : parser.nread.toNat + 1 ≤ httpMaxHeaderSize) :
    iteration parser ch tail = dispatch (parser.addNread 1) ch tail ∧
      (parser.addNread 1).nread.toNat = parser.nread.toNat + 1 := by
  have hnread : (parser.addNread 1).nread.toNat = parser.nread.toNat + 1 := by
    -- the counter has 32 bits and does not wrap around below the limit
    have hmax : httpMaxHeaderSize = 81920 := rfl
    simp only [HttpParser.addNread, UInt32.toNat_add, UInt32.toNat_ofNat']
    omega
  have hfits : (parser.addNread 1).headerOverflow = false := by
    rw [HttpParser.headerOverflow, hnread]
    simpa using hroom
  simp [iteration, hheader, hfits, hnread]

/-- A byte that the case of the state takes without reading on. -/
theorem mainLoop_of_dispatch {parser : HttpParser} {ops : List Op}
    (hheader : l.parser.state.parsingHeader) (hroom : l.parser.nread.toNat + 1 ≤ httpMaxHeaderSize)
    (ht : dispatch (l.parser.addNread 1) ch tail = .next parser ops) :
    mainLoop l 0 (ch :: tail) =
      mainLoop { ops.foldl Loop.runOp l with parser, p := l.p + 1 } 0 tail := by
  have hiter := (iteration_of_room ch tail hheader hroom).1.trans ht
  rw [mainLoop_next (by rw [hiter]; rfl), Loop.advance, hiter, List.drop_zero]
  rfl

/-- A byte of a header that is too long. -/
theorem fails_of_overflow (hheader : l.parser.state.parsingHeader)
    (hfull : l.parser.nread.toNat = httpMaxHeaderSize) (ch : UInt8) (tail : Bytes) :
    (mainLoop l 0 (ch :: tail)).Fails := by
  have hmax : httpMaxHeaderSize = 81920 := rfl
  have hover : (l.parser.addNread 1).headerOverflow = true := by
    simp only [HttpParser.headerOverflow, HttpParser.addNread, UInt32.toNat_add,
      UInt32.toNat_ofNat', decide_eq_true_eq]
    omega
  -- the error is set before the byte is looked at
  refine ⟨l.run (iteration l.parser ch tail), l.p, ?_, ?_⟩
  · rw [mainLoop]
    simp [iteration, hheader, hover, Transition.fail]
  · show (iteration l.parser ch tail).parser.httpErrno ≠ .OK
    simp [iteration, hheader, hover, Transition.fail]

/-- A byte that the switch does not take, whether or not it fits. -/
theorem fails_of_dispatch (hheader : l.parser.state.parsingHeader)
    (hnread : l.parser.nread.toNat ≤ httpMaxHeaderSize) {ops : List Op} {e : HttpErrno}
    (he : e ≠ .OK) (ht : dispatch (l.parser.addNread 1) ch tail = .fail parser e ops) :
    (mainLoop l 0 (ch :: tail)).Fails := by
  by_cases hroom : l.parser.nread.toNat + 1 ≤ httpMaxHeaderSize
  · have hiter := (iteration_of_room ch tail hheader hroom).1.trans ht
    refine ⟨l.run (iteration l.parser ch tail), l.p, ?_, ?_⟩
    · rw [mainLoop]
      simp [hiter, Transition.fail]
    · show (iteration l.parser ch tail).parser.httpErrno ≠ .OK
      rw [hiter]
      exact he
  · exact fails_of_overflow hheader (by omega) ch tail

/-- No bytes. -/
theorem Goes.nil (l : Loop) : Goes l [] l where
  nread _ := rfl
  goes _ _ := rfl
  overflows hnread hover := absurd hover (Nat.not_lt.mpr hnread)

/-- Runs compose. -/
theorem Goes.trans (h : Goes l bs l') (h' : Goes l' cs l'') : Goes l (bs ++ cs) l'' where
  nread hroom := by
    rw [List.length_append] at hroom ⊢
    have hfirst := h.nread (by omega)
    rw [h'.nread (by omega), hfirst]
    omega
  goes hroom more := by
    rw [List.length_append] at hroom
    have hfirst := h.nread (by omega)
    rw [List.append_assoc, h.goes (by omega), h'.goes (by omega)]
  overflows hnread hover more := by
    rw [List.length_append] at hover
    rw [List.append_assoc]
    -- the limit is passed in the second part, or already in the first one
    by_cases hroom : l.parser.nread.toNat + bs.length ≤ httpMaxHeaderSize
    · have hfirst := h.nread hroom
      rw [h.goes hroom]
      exact h'.overflows (by omega) (by omega) more
    · exact h.overflows hnread (by omega) _

/-- A byte that the switch takes without reading on. -/
theorem goes_of_dispatch {ops : List Op} (hheader : l.parser.state.parsingHeader)
    (ht : ∀ tail, dispatch (l.parser.addNread 1) ch tail = .next parser ops)
    (hparser : parser.nread = (l.parser.addNread 1).nread) :
    Goes l [ch] { ops.foldl Loop.runOp l with parser, p := l.p + 1 } where
  nread hroom := by
    rw [hparser]
    exact (iteration_of_room ch [] hheader hroom).2
  goes hroom more := mainLoop_of_dispatch hheader hroom (ht more)
  overflows hnread hover more := by
    rw [List.length_singleton] at hover
    exact fails_of_overflow hheader (by omega) ch more

/-! ## Without marks and callbacks -/

/-- From the record `parser` on, each byte leads to the record beside it, whatever has been
counted. -/
def quietPath (parser : HttpParser) : List (UInt8 × HttpParser) → Prop
  | [] => True
  | (ch, parser') :: path => parser.state.parsingHeader = true ∧
      (∀ nread tail, dispatch { parser with nread } ch tail = .next { parser' with nread } []) ∧
      quietPath parser' path

/-- The bytes of a path of records are read along it. -/
theorem goes_quietPath {path : List (UInt8 × HttpParser)} (h : quietPath parser path)
    (hl : l.parser = { parser with nread := l.parser.nread }) :
    ∃ l', Goes l (path.map Prod.fst) l' ∧ l'.marks = l.marks ∧ l'.calls = l.calls ∧
      l'.parser = { (path.map Prod.snd).getLastD parser with nread := l'.parser.nread } := by
  -- the induction is on the path; the counter is the only field that it does not fix
  induction path generalizing l parser with
  | nil => exact ⟨l, .nil l, rfl, rfl, hl⟩
  | cons step path ih =>
    obtain ⟨ch, parser'⟩ := step
    obtain ⟨hheader, hdispatch, hpath⟩ := h
    -- the record before the switch is that of the path, but for the counter
    have hcounted : l.parser.addNread 1 =
        { parser with nread := (l.parser.addNread 1).nread } := congrArg (·.addNread 1) hl
    have hstate : l.parser.state = parser.state := congrArg (·.state) hl
    have hstep : ∀ tail, dispatch (l.parser.addNread 1) ch tail =
        .next { parser' with nread := (l.parser.addNread 1).nread } [] := fun tail =>
      (congrArg (dispatch · ch tail) hcounted).trans (hdispatch _ tail)
    have hgoes := goes_of_dispatch (hstate ▸ hheader) hstep rfl
    obtain ⟨l', hgoes', hmarks, hcalls, hparser⟩ := ih hpath
      (l := { l with
        parser := { parser' with nread := (l.parser.addNread 1).nread }, p := l.p + 1 }) rfl
    refine ⟨l', hgoes.trans hgoes', hmarks, hcalls, ?_⟩
    rw [List.map_cons, List.getLastD_cons]
    exact hparser

end MosqCluster.Http
