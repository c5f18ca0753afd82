import MosqCluster.Foundation.OrderedMultiMap
import MosqCluster.Helper.StringHelper.Split

/-!
# The headers of a request

What becomes of the calls of `HttpWrapper::SetHeader`: they are kept in a `StringMultiMap` of
`helper/string_helper.cpp`, from which `Get` and `Post` build a block of lines, and `HttpSetHeader`
of `helper/http_client.cpp` takes the block apart and hands the lines to libcurl. It copies each
line to a buffer of 1024 bytes, in which the line is read up to a zero byte.

A map without entries is read at its end. A line that does not fit the buffer with its zero byte is
written, or read, outside it.

## Main definitions

* `StringMultiMap.append` and `StringMultiMap.toString`;
* `httpSetHeader`: the lines that are handed on;
* `HeadersArrive`: they are those of the calls.

## Main results

* `returns_httpSetHeader` and `faults_httpSetHeader`: what becomes of a block;
* `headersArrive_iff`: when the headers arrive.
-/

namespace MosqCluster

open hlp

/-- `StringMultiMap`. -/
abbrev StringMultiMap := OrderedMultiMap Bytes Bytes

namespace StringMultiMap

/-- `StringMultiMap::Append`. -/
def append (m : StringMultiMap) (key value : Bytes) : StringMultiMap :=
  if key.isEmpty then m else OrderedMultiMap.insert m key value

/-- `StringMultiMap::ToString`; `none` is a look at the end of the map. -/
def toString (m : StringMultiMap) (sp assign_key : Bytes) (append_sp : Bool) : Option Bytes :=
  joinLoop sp append_sp [] (m.map fun p => p.1 ++ assign_key ++ p.2)

end StringMultiMap

/-- The size of the buffer for a line. -/
def lineSize : Nat := 1024

/-- `curl_slist_append`, for a line with a colon. -/
def handOn (request_headers : List Bytes) (line : Bytes) : List Bytes :=
  if line.contains 58 then request_headers ++ [line] else request_headers

/-- A turn of the loop of `HttpSetHeader`: what is left of the block, which is `none` for `NULL`,
and the list of libcurl. -/
def httpSetHeaderTurn :
    Option Bytes × List Bytes → Turn (Option Bytes × List Bytes) (List Bytes)
  | (none, request_headers) => .done request_headers
  | (some begin, request_headers) =>
    if begin.isEmpty then .done request_headers
    else
      match begin.dropInfix? (bytes "\r\n") with
      | some (line, rest) =>
        -- `strncpy` leaves the zero byte out of a buffer that the line fills
        if lineSize ≤ line.length then .fault else .next (some rest, handOn request_headers line)
      | none =>
        -- `strcpy` writes the zero byte as well
        if lineSize < begin.length + 1 then .fault
        else .next (none, handOn request_headers begin)

/-- `HttpSetHeader`: the lines for which it calls `curl_slist_append`. -/
def httpSetHeader (header : Bytes) : Execution (List Bytes) :=
  .loop httpSetHeaderTurn (some (cString header), [])

/-- The headers after calls of `SetHeader`. -/
def setHeaders (calls : List (Bytes × Bytes)) : StringMultiMap :=
  calls.foldl (fun m call => m.append call.1 call.2) []

/-- What `Get` and `Post` do with the headers. -/
def sendHeaders (headers_ : StringMultiMap) : Execution (List Bytes) :=
  match headers_.toString (bytes "\r\n") (bytes ":") false with
  | none => .fault
  | some headers => httpSetHeader headers

/-- The line of a call. -/
def headerLine (call : Bytes × Bytes) : Bytes := call.1 ++ bytes ":" ++ call.2

/-- Each call has its line, and those of one name stand in the order of the calls. -/
def HeadersArrive (calls : List (Bytes × Bytes)) : Prop :=
  ∃ order : List (Bytes × Bytes), (sendHeaders (setHeaders calls)).Returns (order.map headerLine) ∧
    order.Perm calls ∧
    ∀ name, order.filter (·.1 = name) = calls.filter (·.1 = name)

/-- A name is not empty and has no colon, and neither the name nor the value has a line end or a
zero byte. -/
structure ValidHeader (call : Bytes × Bytes) : Prop where
  ne_nil : call.1 ≠ []
  name : ∀ b ∈ call.1, b ≠ 58 ∧ b ≠ 13 ∧ b ≠ 10 ∧ b ≠ 0
  value : ∀ b ∈ call.2, b ≠ 13 ∧ b ≠ 10 ∧ b ≠ 0

instance (call : Bytes × Bytes) : Decidable (ValidHeader call) :=
  decidable_of_iff (call.1 ≠ [] ∧ (call.1.all fun b => b ≠ 58 ∧ b ≠ 13 ∧ b ≠ 10 ∧ b ≠ 0) ∧
    call.2.all fun b => b ≠ 13 ∧ b ≠ 10 ∧ b ≠ 0) (by
    simp only [List.all_eq_true, decide_eq_true_eq]
    exact ⟨fun h => ⟨h.1, h.2.1, h.2.2⟩, fun h => ⟨h.ne_nil, h.name, h.value⟩⟩)

/-! ## What becomes of a block -/

/-- A line with a colon, in which no character of a line end occurs. -/
structure IsHeaderLine (line : Bytes) : Prop where
  colon : 58 ∈ line
  free : ∀ b ∈ bytes "\r\n", b ∉ line

section Block

variable {line rest : Bytes} {lines request_headers : List Bytes}

theorem crlf_ne_nil : bytes "\r\n" ≠ [] := by decide

theorem IsHeaderLine.ne_nil (h : IsHeaderLine line) : line ≠ [] := List.ne_nil_of_mem h.colon

theorem IsHeaderLine.handOn (h : IsHeaderLine line) (request_headers : List Bytes) :
    handOn request_headers line = request_headers ++ [line] :=
  if_pos (List.contains_iff_mem.mpr h.colon)

/-- A turn with more than one line. -/
theorem httpSetHeaderTurn_append (h : IsHeaderLine line) (rest : Bytes)
    (request_headers : List Bytes) :
    httpSetHeaderTurn (some (line ++ bytes "\r\n" ++ rest), request_headers) =
      if lineSize ≤ line.length then .fault else .next (some rest, request_headers ++ [line]) := by
  rw [httpSetHeaderTurn, if_neg (by simp [h.ne_nil]),
    Occurrences.cut_of_disjoint crlf_ne_nil h.free]
  simp only [h.handOn]

/-- A turn with the last line. -/
theorem httpSetHeaderTurn_last (h : IsHeaderLine line) (request_headers : List Bytes) :
    httpSetHeaderTurn (some line, request_headers) =
      if lineSize ≤ line.length then .fault else .next (none, request_headers ++ [line]) := by
  rw [httpSetHeaderTurn, if_neg (by simp [h.ne_nil]),
    Occurrences.cut_eq_none_of_disjoint crlf_ne_nil h.free]
  simp only [h.handOn, Nat.lt_succ_iff]

/-- Lines that fit the buffer are handed on, one by one. -/
theorem returns_httpSetHeader_loop (hne : lines ≠ []) (hlines : ∀ line ∈ lines, IsHeaderLine line)
    (hfit : ∀ line ∈ lines, line.length < lineSize) (request_headers : List Bytes) :
    (Execution.loop httpSetHeaderTurn
      (some ((bytes "\r\n").intercalate lines), request_headers)).Returns
      (request_headers ++ lines) := by
  induction lines generalizing request_headers with
  | nil => exact absurd rfl hne
  | cons line lines ih =>
    have hline := hlines line List.mem_cons_self
    have hlt := Nat.not_le_of_lt (hfit line List.mem_cons_self)
    by_cases hlast : lines = []
    · subst hlast
      have hturn := httpSetHeaderTurn_last hline request_headers
      rw [if_neg hlt] at hturn
      rw [List.intercalate_singleton, Execution.returns_loop_of_next hturn]
      exact Execution.returns_loop_of_done rfl
    · have hturn := httpSetHeaderTurn_append hline ((bytes "\r\n").intercalate lines)
        request_headers
      rw [if_neg hlt] at hturn
      rw [List.intercalate_cons_of_ne_nil hlast, Execution.returns_loop_of_next hturn]
      have hrest := ih hlast (fun l hl => hlines l (List.mem_cons_of_mem _ hl))
        (fun l hl => hfit l (List.mem_cons_of_mem _ hl)) (request_headers ++ [line])
      rwa [List.append_assoc, List.singleton_append] at hrest

/-- A line that does not fit leaves the buffer. -/
theorem faults_httpSetHeader_loop (hlines : ∀ line ∈ lines, IsHeaderLine line)
    (hlong : ∃ line ∈ lines, lineSize ≤ line.length) (request_headers : List Bytes) :
    (Execution.loop httpSetHeaderTurn
      (some ((bytes "\r\n").intercalate lines), request_headers)).Faults := by
  induction lines generalizing request_headers with
  | nil =>
    obtain ⟨line, hmem, -⟩ := hlong
    cases hmem
  | cons line lines ih =>
    have hline := hlines line List.mem_cons_self
    by_cases hlast : lines = []
    · subst hlast
      have hle : lineSize ≤ line.length := by simpa using hlong
      have hturn := httpSetHeaderTurn_last hline request_headers
      rw [if_pos hle] at hturn
      rw [List.intercalate_singleton]
      exact Execution.faults_loop_of_fault hturn
    · have hturn := httpSetHeaderTurn_append hline ((bytes "\r\n").intercalate lines)
        request_headers
      rw [List.intercalate_cons_of_ne_nil hlast]
      by_cases hle : lineSize ≤ line.length
      · rw [if_pos hle] at hturn
        exact Execution.faults_loop_of_fault hturn
      · -- the long line comes later
        rw [if_neg hle] at hturn
        have hlater : ∃ l ∈ lines, lineSize ≤ l.length := by
          simpa [hle] using hlong
        exact Execution.faults_loop_of_next hturn
          (ih (fun l hl => hlines l (List.mem_cons_of_mem _ hl)) hlater _)

end Block

/-! ## When the headers arrive -/

section Arrive

variable {call : Bytes × Bytes} {calls : List (Bytes × Bytes)}

/-- Of the characters of a line, only the colon is not one of the name or of the value. -/
theorem mem_headerLine {b : UInt8} : b ∈ headerLine call ↔ b ∈ call.1 ∨ b = 58 ∨ b ∈ call.2 := by
  have hcolon : bytes ":" = [58] := rfl
  rw [headerLine, List.mem_append, List.mem_append, hcolon, List.mem_singleton, or_assoc]

theorem ValidHeader.isHeaderLine (h : ValidHeader call) : IsHeaderLine (headerLine call) := by
  refine ⟨mem_headerLine.mpr (.inr (.inl rfl)), fun b hb hmem => ?_⟩
  have hb : b = 13 ∨ b = 10 := by
    have hcrlf : bytes "\r\n" = [13, 10] := rfl
    simpa [hcrlf] using hb
  rcases mem_headerLine.mp hmem with hname | rfl | hvalue
  · have := h.name b hname
    tauto
  · exact absurd hb (by decide)
  · have := h.value b hvalue
    tauto

theorem ValidHeader.zero_not_mem (h : ValidHeader call) : 0 ∉ headerLine call := by
  intro hmem
  rcases mem_headerLine.mp hmem with hname | hzero | hvalue
  · exact (h.name 0 hname).2.2.2 rfl
  · exact absurd hzero (by decide)
  · exact (h.value 0 hvalue).2.2 rfl

/-- Every call makes an entry. -/
theorem setHeaders_eq_ofList (hcalls : ∀ call ∈ calls, ValidHeader call) :
    setHeaders calls = OrderedMultiMap.ofList calls := by
  apply List.foldl_ext
  intro m call hcall
  exact if_neg (by simpa using (hcalls call hcall).ne_nil)

/-- Without a line end or a zero byte in the lines, the block is read to its end. -/
theorem cString_intercalate {lines : List Bytes} (hlines : ∀ line ∈ lines, 0 ∉ line) :
    cString ((bytes "\r\n").intercalate lines) = (bytes "\r\n").intercalate lines := by
  apply cString_of_not_mem
  induction lines with
  | nil => exact List.not_mem_nil
  | cons line lines ih =>
    have hline := hlines line List.mem_cons_self
    by_cases hlast : lines = []
    · subst hlast
      rwa [List.intercalate_singleton]
    · rw [List.intercalate_cons_of_ne_nil hlast, List.mem_append, List.mem_append]
      have hcrlf : 0 ∉ bytes "\r\n" := by decide
      have hrest := ih fun l hl => hlines l (List.mem_cons_of_mem _ hl)
      tauto

/-- The block of a map with entries is taken apart. -/
theorem sendHeaders_eq {m : StringMultiMap} (hne : m ≠ []) (hvalid : ∀ call ∈ m, ValidHeader call) :
    sendHeaders m = .loop httpSetHeaderTurn
      (some ((bytes "\r\n").intercalate (m.map headerLine)), []) := by
  have hstring : m.toString (bytes "\r\n") (bytes ":") false =
      some ((bytes "\r\n").intercalate (m.map headerLine)) :=
    joinLoop_eq (bytes "\r\n") [] (by simpa using hne)
  rw [sendHeaders, hstring]
  dsimp only
  rw [httpSetHeader, cString_intercalate]
  intro line hline
  obtain ⟨call, hcall, rfl⟩ := List.mem_map.mp hline
  exact (hvalid call hcall).zero_not_mem

/-- Without headers, the end of the map is read. -/
theorem faults_sendHeaders_nil : (sendHeaders []).Faults := Computation.ret_mem none

/-- The headers arrive if and only if there are some, and every line leaves room in the buffer for a
zero byte. -/
theorem headersArrive_iff (hcalls : ∀ call ∈ calls, ValidHeader call) :
    HeadersArrive calls ↔
      calls ≠ [] ∧ ∀ call ∈ calls, call.1.length + 1 + call.2.length < 1024 := by
  have hlength : ∀ call, (headerLine call).length = call.1.length + 1 + call.2.length := by
    intro call
    rw [headerLine, List.length_append, List.length_append]
    rfl
  have hperm : (setHeaders calls).Perm calls := by
    rw [setHeaders_eq_ofList hcalls]
    exact OrderedMultiMap.ofList_perm calls
  have hvalid : ∀ call ∈ setHeaders calls, ValidHeader call := fun call hcall =>
    hcalls call (hperm.mem_iff.mp hcall)
  have hlines : ∀ line ∈ (setHeaders calls).map headerLine, IsHeaderLine line := by
    intro line hline
    obtain ⟨call, hcall, rfl⟩ := List.mem_map.mp hline
    exact (hvalid call hcall).isHeaderLine
  constructor
  · rintro ⟨order, hreturns, -, -⟩
    have hne : calls ≠ [] := by
      rintro rfl
      exact faults_sendHeaders_nil.not_returns hreturns
    refine ⟨hne, fun call hcall => ?_⟩
    by_contra hlong
    -- the line of this call leaves the buffer
    have hmem : headerLine call ∈ (setHeaders calls).map headerLine :=
      List.mem_map_of_mem (hperm.mem_iff.mpr hcall)
    have hle : lineSize ≤ (headerLine call).length := by
      rw [hlength]
      exact Nat.le_of_not_lt hlong
    rw [sendHeaders_eq (fun hnil => hne (by simpa [hnil] using hperm.symm)) hvalid] at hreturns
    exact (faults_httpSetHeader_loop hlines ⟨_, hmem, hle⟩ []).not_returns hreturns
  · rintro ⟨hne, hfit⟩
    have hne' : setHeaders calls ≠ [] := fun hnil => hne (by simpa [hnil] using hperm.symm)
    refine ⟨setHeaders calls, ?_, hperm, fun name => ?_⟩
    · rw [sendHeaders_eq hne' hvalid]
      apply returns_httpSetHeader_loop (by simpa using hne') hlines
      intro line hline
      obtain ⟨call, hcall, rfl⟩ := List.mem_map.mp hline
      rw [hlength]
      exact hfit call (hperm.mem_iff.mp hcall)
    · rw [setHeaders_eq_ofList hcalls]
      exact OrderedMultiMap.filter_ofList calls name

/-- Two headers of one name. -/
theorem headersArrive_two :
    HeadersArrive [(bytes "Accept", bytes "a"), (bytes "Accept", bytes "b")] := by
  refine (headersArrive_iff fun call hcall => ?_).mpr ⟨by simp, by simp [bytes]⟩
  obtain rfl | rfl : call = (bytes "Accept", bytes "a") ∨ call = (bytes "Accept", bytes "b") := by
    simpa using hcall
  · decide
  · decide

/-- A request without headers. -/
theorem not_headersArrive :
    ¬ ∀ calls, (∀ call ∈ calls, ValidHeader call) → HeadersArrive calls := by
  intro h
  obtain ⟨order, hreturns, -, -⟩ := h [] fun _ hcall => absurd hcall List.not_mem_nil
  exact faults_sendHeaders_nil.not_returns hreturns

end Arrive

end MosqCluster
