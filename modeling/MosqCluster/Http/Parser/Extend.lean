import MosqCluster.Http.Parser.MainLoop

/-!
# Longer buffers

What the main loop does with the bytes of a buffer does not depend on the bytes that follow it in a
longer one, except where a case of the switch reads ahead: there the end of the buffer cuts a header
or the body short, and its mark stays set. So where no such mark is set at the end of a buffer, the
loop over a longer buffer goes on from there.

## Main definitions

* `Extends`: how a transition fares when more bytes follow;
* `HoldsMarks`: the marks that the state asks for are set.

## Main results

* `iteration_extends`: an iteration is the same in a longer buffer, or cut short;
* `mainLoop_append`: a buffer that cuts nothing short is a prefix of a run over a longer one;
* `mainLoop_append_of_returned`: where the loop is left without an error, it is left in the longer
  buffer too.
-/

namespace MosqCluster.Http

/-- How the transition `t`, which `tail` follows, fares when more bytes follow: it is the same, the
buffer ends within a span of the header or the body, or it fails. -/
inductive Extends (parser : HttpParser) (tail : List UInt8) (t longer : Transition) : Prop
  /-- It is the same. -/
  | same (h : longer = t)
  /-- The span goes on in the longer buffer. -/
  | cut (kind : SpanKind) (hkind : kind.ofTarget = false) (hexit : t.exit = .next tail.length)
      (hops : t.ops = [.mark kind] ∨ t.ops = [] ∧ heldMark parser.state = some kind)
  /-- The loop is left with an error. -/
  | fails (off : Nat) (hexit : t.exit = .error off) (herrno : t.parser.httpErrno ≠ .OK)
  /-- An assertion fails. -/
  | aborts (hexit : t.exit = .abort)

variable {parser : HttpParser} {ch : UInt8} {tail rest more : List UInt8}

/-! ## Scans -/

/-- A header name that ends within the buffer. -/
theorem scanHeaderField_append {count : Nat} {scan : FieldScan}
    (h : scanHeaderField parser count rest = some scan) (hstop : scan.stop ≠ none) :
    scanHeaderField parser count (rest ++ more) = some scan := by
  induction rest generalizing parser count with
  | nil =>
    obtain rfl := Option.some.inj h
    exact absurd rfl hstop
  | cons ch tail ih =>
    rw [scanHeaderField] at h
    rw [List.cons_append, scanHeaderField]
    split_ifs at h ⊢ with htoken
    · exact h
    · obtain ⟨parser', hchar, h⟩ := Option.bind_eq_some_iff.mp h
      rw [hchar, Option.bind_some]
      exact ih h

/-- A byte of a header value is read the same way in a longer buffer, unless the loop passes over
the rest of this one. -/
theorem headerValueChar_append (parser : HttpParser) (hState : HeaderState) (ch : UInt8)
    (tail more : List UInt8) :
    headerValueChar parser hState ch (tail ++ more) = headerValueChar parser hState ch tail ∨
      headerValueChar parser hState ch tail = .next parser hState tail.length := by
  cases hState with
  | general =>
    have hchar : ∀ tail, headerValueChar parser .general ch tail =
        if !parser.lenientHttpHeaders && !isHeaderChar ch then .error parser .INVALID_HEADER_TOKEN
        else .next parser .general (skipToLineEnd ch tail) := fun _ => rfl
    rw [hchar, hchar]
    cases hfind : ((ch :: tail).take httpMaxHeaderSize).findIdx? (fun b => b = CR || b = LF) with
    | none =>
      have hskip : skipToLineEnd ch tail = tail.length := by rw [skipToLineEnd, hfind]
      split_ifs
      · exact .inl rfl
      · exact .inr (by rw [hskip])
    | some i =>
      -- The first line end of the shorter buffer is that of the longer one.
      have hlonger : ((ch :: (tail ++ more)).take httpMaxHeaderSize).findIdx?
          (fun b => b = CR || b = LF) = some i := by
        rw [← List.cons_append, List.take_append, List.findIdx?_append, hfind]
        rfl
      have hskip : skipToLineEnd ch (tail ++ more) = skipToLineEnd ch tail := by
        rw [skipToLineEnd, hlonger, skipToLineEnd, hfind]
      exact .inl (by rw [hskip])
  | _ => exact .inl rfl

/-- Passing over the rest of a buffer. -/
theorem scanHeaderValue_length (parser : HttpParser) (hState : HeaderState) (count : Nat)
    (rest : List UInt8) :
    scanHeaderValue parser hState count rest.length rest =
      .eob parser hState (count + rest.length) := by
  induction rest generalizing count with
  | nil => rfl
  | cons ch tail ih =>
    rw [List.length_cons, scanHeaderValue, ih]
    congr 1
    omega

/-- A header value that ends within the buffer. -/
theorem scanHeaderValue_append {hState : HeaderState} {count skip : Nat}
    (h : ∀ p s c, scanHeaderValue parser hState count skip rest ≠ .eob p s c) :
    scanHeaderValue parser hState count skip (rest ++ more) =
      scanHeaderValue parser hState count skip rest := by
  induction rest generalizing parser hState count skip with
  | nil => exact absurd rfl (h parser hState count)
  | cons ch tail ih =>
    rw [List.cons_append]
    cases skip with
    | succ skip =>
      rw [scanHeaderValue] at h ⊢
      exact ih h
    | zero =>
      rw [scanHeaderValue] at h ⊢
      -- A line end stops the loop in both buffers.
      split_ifs at h ⊢ with hcr hlf
      · rw [scanHeaderValue, if_pos hcr]
      · rw [scanHeaderValue, if_neg hcr, if_pos hlf]
      · rw [scanHeaderValue.eq_3, if_neg hcr, if_neg hlf]
        -- A byte is taken alike in both, or the rest of the buffer is skipped and its end is
        -- reached.
        rcases headerValueChar_append parser hState ch tail more with heq | heq
        · rw [heq]
          cases hchar : headerValueChar parser hState ch tail with
          | next parser' hState' skip =>
            simp only [hchar] at h
            exact ih h
          | _ => rfl
        · rw [heq] at h
          exact absurd (scanHeaderValue_length ..) (h _ _ _)

/-! ## Transitions -/

/-- Case `s_header_field`. -/
theorem onHeaderField_extends (hs : parser.state = .headerField) :
    Extends parser tail (onHeaderField parser (ch :: tail))
      (onHeaderField parser (ch :: (tail ++ more))) := by
  rw [← List.cons_append]
  cases hscan : scanHeaderField parser 0 (ch :: tail) with
  | none =>
    -- The length of the name overflows.
    refine .aborts ?_
    rw [onHeaderField, hscan]
    rfl
  | some scan =>
    by_cases hstop : scan.stop = none
    · -- The name goes on at the end of the buffer.
      have hcount := (scanHeaderField_spec hscan).2.2.1 hstop
      rw [List.length_cons, Nat.zero_add] at hcount
      rw [onHeaderField, hscan]
      simp only [hstop]
      split_ifs
      · exact .fails _ rfl (by simp)
      · exact .cut .headerField rfl (by rw [hcount]; rfl) (.inr ⟨rfl, by rw [hs]; rfl⟩)
    · refine .same ?_
      -- The name ends before the buffer does.
      rw [onHeaderField, onHeaderField, hscan, scanHeaderField_append hscan hstop]

/-- Case `s_header_value`. -/
theorem onHeaderValue_extends (hs : parser.state = .headerValue) :
    Extends parser tail (onHeaderValue parser (ch :: tail))
      (onHeaderValue parser (ch :: (tail ++ more))) := by
  rw [← List.cons_append]
  by_cases heob : ∃ p s c, scanHeaderValue parser parser.headerState 0 0 (ch :: tail) = .eob p s c
  · -- The value goes on at the end of the buffer.
    obtain ⟨scanned, hState, count, hscan⟩ := heob
    have hwithin : (scanHeaderValue parser parser.headerState 0 0 (ch :: tail)).Within
        parser.httpErrno (0 + (ch :: tail).length) := scanHeaderValue_within hs
    rw [hscan] at hwithin
    obtain ⟨-, -, hcount⟩ := hwithin
    rw [List.length_cons, Nat.zero_add] at hcount
    rw [onHeaderValue, hscan]
    simp only
    split_ifs
    · exact .fails _ rfl (by simp)
    · exact .cut .headerValue rfl (by rw [hcount]; rfl) (.inr ⟨rfl, by rw [hs]; rfl⟩)
  · simp only [not_exists] at heob
    refine .same ?_
    -- The value ends before the buffer does.
    rw [onHeaderValue, onHeaderValue, scanHeaderValue_append heob]

/-- A body or a chunk that ends within the buffer ends there in a longer one. -/
theorem toRead_append (h : parser.contentLength.toNat ≤ rest.length) :
    toRead parser (rest ++ more) = toRead parser rest := by
  simp only [toRead, List.length_append]
  omega

/-- What is left of a body or a chunk that does not end within the buffer. -/
theorem contentLength_sub_toRead_ne_zero (h : ¬ parser.contentLength.toNat ≤ rest.length) :
    parser.contentLength - UInt64.ofNat (toRead parser rest) ≠ 0 := by
  have hread : toRead parser rest = rest.length := by
    rw [toRead]
    omega
  have hlt := parser.contentLength.toNat_lt
  intro h0
  -- The difference would be zero only if everything had been read.
  rw [UInt64.sub_eq_iff_eq_add, UInt64.zero_add, hread] at h0
  have hnat : (UInt64.ofNat rest.length).toNat = rest.length := by
    rw [UInt64.toNat_ofNat']
    exact Nat.mod_eq_of_lt (by omega)
  rw [h0, hnat] at h
  exact h le_rfl

/-- Case `s_body_identity`. -/
theorem onBodyIdentity_extends :
    Extends parser tail (onBodyIdentity parser (ch :: tail))
      (onBodyIdentity parser (ch :: (tail ++ more))) := by
  rw [← List.cons_append]
  by_cases hend : parser.contentLength.toNat ≤ (ch :: tail).length
  · refine .same ?_
    simp only [onBodyIdentity, toRead_append hend]
  · -- The body goes on at the end of the buffer.
    have hread : toRead parser (ch :: tail) = tail.length + 1 := by
      rw [List.length_cons] at hend
      rw [toRead, List.length_cons]
      omega
    have hleft := contentLength_sub_toRead_ne_zero hend
    unfold onBodyIdentity
    split_ifs
    · exact .aborts rfl
    · simp only [if_neg hleft]
      exact .cut .body rfl (by rw [hread]; rfl) (.inl rfl)

/-- Case `s_chunk_data`. -/
theorem onChunkData_extends :
    Extends parser tail (onChunkData parser (ch :: tail))
      (onChunkData parser (ch :: (tail ++ more))) := by
  rw [← List.cons_append]
  by_cases hend : parser.contentLength.toNat ≤ (ch :: tail).length
  · refine .same ?_
    simp only [onChunkData, toRead_append hend]
  · -- The chunk goes on at the end of the buffer.
    have hread : toRead parser (ch :: tail) = tail.length + 1 := by
      rw [List.length_cons] at hend
      rw [toRead, List.length_cons]
      omega
    unfold onChunkData
    split_ifs
    · exact .aborts rfl
    · exact .aborts rfl
    · simp only
      exact .cut .body rfl (by rw [hread]; rfl) (.inl rfl)

/-- Every case of the switch fares like that. -/
theorem dispatch_extends (parser : HttpParser) (ch : UInt8) (tail more : List UInt8) :
    Extends parser tail (dispatch parser ch tail) (dispatch parser ch (tail ++ more)) := by
  cases hs : parser.state with
  | headerField =>
    simp only [dispatch, hs]
    exact onHeaderField_extends hs
  | headerValue =>
    simp only [dispatch, hs]
    exact onHeaderValue_extends hs
  | bodyIdentity =>
    simp only [dispatch, hs]
    exact onBodyIdentity_extends
  | bodyIdentityEof =>
    simp only [dispatch, hs]
    exact .cut .body rfl (by simp [onBodyIdentityEof]) (.inl rfl)
  | chunkData =>
    simp only [dispatch, hs]
    exact onChunkData_extends
  | _ =>
    -- The other cases look at one byte.
    refine .same ?_
    simp only [dispatch, hs]

/-- Every iteration of the main loop fares like that. -/
theorem iteration_extends (parser : HttpParser) (ch : UInt8) (tail more : List UInt8) :
    Extends parser tail (iteration parser ch tail) (iteration parser ch (tail ++ more)) := by
  unfold iteration
  split_ifs
  · simp only
    split_ifs
    · -- The header is too long, whatever follows.
      exact .same rfl
    · obtain h | ⟨kind, hkind, hexit, hops⟩ | ⟨off, hexit, herrno⟩ | hexit :=
        dispatch_extends (parser.addNread 1) ch tail more
      · exact .same h
      · exact .cut kind hkind hexit hops
      · exact .fails off hexit herrno
      · exact .aborts hexit
  · exact dispatch_extends parser ch tail more

/-! ## The main loop -/

/-- The mark that the state asks for is set. -/
def HoldsMarks (l : Loop) : Prop :=
  ∀ kind, heldMark l.parser.state = some kind → (l.marks kind).isSome

variable {l l' : Loop} {data : List UInt8}

/-- A mark that is held is set to resume its span. -/
theorem resumeMark_of_heldMark {s : State} {kind : SpanKind} (h : heldMark s = some kind) :
    resumeMark s = some kind := by
  revert h
  cases s <;> simp [heldMark, resumeMark]

/-- The marks are held before the first iteration. -/
theorem holdsMarks_enter : HoldsMarks (.enter parser) := by
  intro kind hkind
  have hresume : resumeMark parser.state = some kind := resumeMark_of_heldMark hkind
  simp [Loop.enter, hresume]

/-- An iteration that goes on holds the marks. -/
theorem HoldsMarks.advance (h : HoldsMarks l) {extra : Nat}
    (hexit : (iteration l.parser ch tail).exit = .next extra) :
    HoldsMarks (l.advance ch tail extra) := by
  intro kind hkind
  have hmarked := iteration_keepsMarks.held extra hexit kind hkind
  refine (isSome_marks_foldl kind _ l).trans (markedAfter_mono (fun hheld => ?_) _ hmarked)
  exact h kind (by simpa using hheld)

/-- Where the buffer cuts a span short, its mark is set at the end. -/
theorem isSome_marks_of_cut (extra : Nat) (h : HoldsMarks l) {kind : SpanKind}
    (hops : (iteration l.parser ch tail).ops = [.mark kind] ∨
      (iteration l.parser ch tail).ops = [] ∧ heldMark l.parser.state = some kind) :
    ((l.advance ch tail extra).marks kind).isSome := by
  refine (isSome_marks_foldl kind _ l).trans ?_
  rcases hops with hops | ⟨hops, hheld⟩
  · simp [hops, markedAfter, Op.markAfter]
  · simp [hops, markedAfter, h kind hheld]

/-- Where no mark of the header or the body is set at the end of a buffer, the loop over a longer
buffer goes on from there. -/
theorem mainLoop_append (h : HoldsMarks l) (hdone : mainLoop l 0 data = .done l')
    (hclosed : ∀ kind, kind.ofTarget = false → l'.marks kind = none) :
    mainLoop l 0 (data ++ more) = mainLoop l' 0 more := by
  induction hn : data.length using Nat.strong_induction_on generalizing l data with
  | _ n ih =>
    cases data with
    | nil =>
      obtain rfl := Outcome.done.inj hdone
      rfl
    | cons ch tail =>
      obtain ⟨extra, hexit⟩ : ∃ extra, (iteration l.parser ch tail).exit = .next extra := by
        rw [mainLoop] at hdone
        cases hexit : (iteration l.parser ch tail).exit <;> simp_all
      rw [mainLoop_next hexit] at hdone
      have hextra := iteration_keepsMarks.extra_le extra hexit
      obtain heq | ⟨kind, hkind, hcut, hops⟩ | ⟨off, herror, -⟩ | habort :=
        iteration_extends l.parser ch tail more
      · -- The iteration is the same, and the induction takes what it leaves of the buffer.
        have hexit' : (iteration l.parser ch (tail ++ more)).exit = .next extra := heq ▸ hexit
        have hadvance : l.advance ch (tail ++ more) extra = l.advance ch tail extra := by
          rw [Loop.advance, Loop.advance, heq]
        have hshorter : (tail.drop extra).length < n := by
          rw [← hn, List.length_drop, List.length_cons]
          omega
        rw [List.cons_append, mainLoop_next hexit', hadvance, List.drop_append_of_le_length hextra]
        exact ih _ hshorter (h.advance hexit) hdone rfl
      · -- A span that is cut short would still be open at the end.
        obtain rfl : extra = tail.length := Exit.next.inj (hexit.symm.trans hcut)
        rw [List.drop_length] at hdone
        obtain rfl := Outcome.done.inj hdone
        have hset := isSome_marks_of_cut tail.length h hops
        rw [hclosed kind hkind] at hset
        cases hset
      · rw [herror] at hexit
        cases hexit
      · rw [habort] at hexit
        cases hexit

/-- Where the loop is left without an error, the loop over a longer buffer is left there too. -/
theorem mainLoop_append_of_returned {n : Nat} (hreturned : mainLoop l 0 data = .returned l' n)
    (herrno : l'.parser.httpErrno = .OK) : mainLoop l 0 (data ++ more) = .returned l' n := by
  induction hlen : data.length using Nat.strong_induction_on generalizing l data with
  | _ len ih =>
    cases data with
    | nil => cases hreturned
    | cons ch tail =>
      obtain heq | ⟨kind, -, hcut, -⟩ | ⟨off, herror, hne⟩ | habort :=
        iteration_extends l.parser ch tail more
      · rw [List.cons_append, mainLoop, heq]
        rw [mainLoop] at hreturned
        cases hexit : (iteration l.parser ch tail).exit with
        | next extra =>
          -- The loop is left in a later iteration.
          have hextra := iteration_keepsMarks.extra_le extra hexit
          have hshorter : (tail.drop extra).length < len := by
            rw [← hlen, List.length_drop, List.length_cons]
            omega
          simp only [hexit] at hreturned ⊢
          rw [mainLoop_skip] at hreturned
          rw [mainLoop_skip, List.drop_append_of_le_length hextra]
          exact ih _ hshorter hreturned rfl
        | _ => simpa only [hexit] using hreturned
      · -- The loop would have used up the buffer.
        rw [mainLoop_next hcut, List.drop_length] at hreturned
        cases hreturned
      · rw [mainLoop] at hreturned
        simp only [herror, Outcome.returned.injEq] at hreturned
        obtain ⟨rfl, -⟩ := hreturned
        exact absurd herrno hne
      · rw [mainLoop] at hreturned
        simp [habort] at hreturned

end MosqCluster.Http
