import EbpfMonitor.DescriptorReuse
import EbpfMonitor.HttpProtocol

/-! # `AsyncHttpServer`: what a client makes of its answer

`handle_client` calls `write` once and does not look at the result.  The call may take a part of the
response only, or fail, and the connection is closed all the same, so a client can be left with any
beginning of the response.

`client_gets_whole_answer_iff` says what a reader of HTTP/1.1 makes of it, for every connection of every
run: the answer to its own request if the whole response has arrived, and nothing otherwise.  A
shortened response is never taken for another one. -/

namespace EbpfMonitor

open Text HttpMessage

namespace AsyncHttpServer

/-- The answer to a request for `path`, as it is meant. -/
def answer (handler : Option (Text → Text)) (path : Text) : Response :=
  let body := answerBody handler path
  response (answerStatus path body) (contentType path) body

theorem respond_eq_encode (handler : Option (Text → Text)) (path : Text) :
    respond handler path = encode (answer handler path) :=
  buildResponse_eq_encode _ _ _

theorem wellFormed_answer (handler : Option (Text → Text)) (path : Text) :
    WellFormed (answer handler path) := by
  have hstatus : ∀ b : Bool, 100 ≤ (if b then 404 else 200) ∧ (if b then 404 else 200) < 1000 := by decide
  have htype : '\r' ∉ contentType path ∧ trim (contentType path) = contentType path := by
    unfold contentType
    split_ifs <;> decide
  exact wellFormed_response (hstatus _).1 (hstatus _).2 htype.1 htype.2 _

/-- A reader finds an answer in a beginning of the response exactly if it is the whole. -/
theorem decode_beginning (handler : Option (Text → Text)) (path : Text) {got : Text}
    (h : got <+: respond handler path) :
    decode got = if got = respond handler path then some (answer handler path, []) else none := by
  split_ifs with hwhole
  · have hdecode := decode_encode (wellFormed_answer handler path) []
    rwa [List.append_nil, ← respond_eq_encode, ← hwhole] at hdecode
  · rw [respond_eq_encode] at h hwhole
    cases hdecode : decode got with
    | none => rfl
    | some p => exact absurd (decode_start_of_encode (wellFormed_answer handler path) h hdecode).1 hwhole

namespace Loop

/-- A connection is sent the answer to what was read from it, or nothing. -/
theorem Apart.responses_eq {handler : Option (Text → Text)} {s : Loop} (h : s.Apart handler)
    {pre post : List Syscall} {fd : ℕ} (htrace : s.trace = pre ++ .accept fd :: post) :
    responses (connection fd post) = [] ∨
      responses (connection fd post) = [respond handler (parsePath (received (connection fd post)))] := by
  obtain ⟨hnil, -⟩ | ⟨⟨reads, hcalls⟩, -⟩ := h.turns.turns pre _ post fd htrace rfl
  · left
    rw [connection, hnil]
    rfl
  · obtain ⟨-, hlen, heach⟩ := responses_clientCalls handler fd reads
    rw [connection, hcalls]
    cases hresponses : responses (clientCalls ⟨handler, ∅⟩ fd reads) with
    | nil => exact Or.inl rfl
    | cons b bs =>
        rw [hresponses, List.length_cons] at hlen
        have hbs : bs = [] := List.eq_nil_of_length_eq_zero (by omega)
        have hb := heach b (by rw [hresponses]; exact List.mem_cons_self)
        exact Or.inr (by rw [hbs, hb])

/-- **A client gets the answer to its own request, whole or not at all.**  In every run of a new server,
for every connection and every beginning of what was written to it that has arrived: a reader finds the
answer for the path in the bytes read from this connection if the whole of it has arrived, and no
response at all otherwise. -/
theorem client_gets_whole_answer_iff {handler : Option (Text → Text)} {r : Startup} {s₀ s : Loop}
    {as : List Action} (hstart : AsyncHttpServer.start ⟨handler, ∅⟩ r = .ok s₀)
    (hrun : Runs.run step s₀ as = some s) {pre post : List Syscall} {fd : ℕ}
    (htrace : s.trace = pre ++ .accept fd :: post) {got : Text}
    (hgot : got <+: (responses (connection fd post)).flatten) :
    decode got =
      if got = respond handler (parsePath (received (connection fd post))) then
        some (answer handler (parsePath (received (connection fd post))), [])
      else none := by
  obtain ⟨-, hapart⟩ := Apart.run hstart hrun
  apply decode_beginning
  rcases hapart.responses_eq htrace with hnone | hone
  · rw [hnone] at hgot
    rw [List.prefix_nil.mp hgot]
    exact List.nil_prefix
  · rwa [hone, List.flatten_singleton] at hgot

/-- A request in two reads, and a write that takes 60 bytes of the answer. -/
theorem client_gets_whole_answer_short :
    ∃ s post, Runs.run step booted [.arrive, .wait [3], .next, .accept (.ok 9), .add none,
        .accept .again, .next, .wait [9],
        .client 9 [.data "GET /a HT".toList, .data "TP/1.1\r\n\r\n".toList]] = some s ∧
      s.trace = [] ++ .accept 9 :: post ∧ received (connection 9 post) = "GET /a HTTP/1.1\r\n\r\n".toList ∧
      decode ((responses (connection 9 post)).flatten.take 60) = none := by
  obtain ⟨s, hrun, hhead, hread, hlen, hshort⟩ : ∃ s, Runs.run step booted [.arrive, .wait [3], .next,
      .accept (.ok 9), .add none, .accept .again, .next, .wait [9],
      .client 9 [.data "GET /a HT".toList, .data "TP/1.1\r\n\r\n".toList]] = some s ∧
      (s.trace.head?.any fun c => c matches .accept 9) = true ∧
      received (connection 9 s.trace.tail) = "GET /a HTTP/1.1\r\n\r\n".toList ∧
      60 < (responses (connection 9 s.trace.tail)).flatten.length ∧
      60 < (respond none (parsePath "GET /a HTTP/1.1\r\n\r\n".toList)).length :=
    Runs.exists_run_of_any (by decide +kernel)
  obtain ⟨post, htrace⟩ : ∃ post, s.trace = [] ++ .accept 9 :: post := by
    cases htrace : s.trace with
    | nil => simp [htrace] at hhead
    | cons c cs =>
        rw [htrace, List.head?_cons, Option.any_some] at hhead
        split at hhead
        · exact ⟨cs, rfl⟩
        · cases hhead
  rw [htrace, List.nil_append, List.tail_cons] at hread hlen
  refine ⟨s, post, hrun, htrace, hread, ?_⟩
  rw [client_gets_whole_answer_iff start_booted hrun htrace (List.take_prefix 60 _), hread, if_neg]
  intro heq
  have := congrArg List.length heq
  rw [List.length_take] at this
  omega

end Loop

end AsyncHttpServer

end EbpfMonitor
