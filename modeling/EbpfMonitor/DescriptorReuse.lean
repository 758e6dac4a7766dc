import EbpfMonitor.EventLoop
import EbpfMonitor.Lib.Tenure

/-! # `AsyncHttpServer`: connections that reuse a descriptor

`read_bufs_` is keyed by the bare descriptor, and the kernel gives the number of a closed client to
the next connection, possibly in the same batch of events.

* **One call.**  A step of the loop is a call of `handle_client` on the buffer in the map
  (`handleInPlace`): `read_bufs_[fd]` creates it, and `close_client` erases it on each of the four
  ways out.  By `handleInPlace_eq` nothing else is left of it.
* **One connection.**  A connection is an `accept4` in the trace; its calls are those on its
  descriptor until the number is given away again (`connection`).

`connections_apart` puts them together: what `parse_path` is given are the bytes of the reads of
the connection, all of them and no others, and a connection is answered at most once. -/

namespace EbpfMonitor

open Text

namespace AsyncHttpServer

/-! ### The calls of one connection -/

/-- The bytes that the call takes from the connection. -/
def Syscall.received : Syscall → Text
  | .read _ (.data bytes) => bytes
  | _ => []

/-- The response that the call sends. -/
def Syscall.response : Syscall → Option Text
  | .write _ bytes => some bytes
  | _ => none

def received (calls : List Syscall) : Text := calls.flatMap Syscall.received

def responses (calls : List Syscall) : List Text := calls.filterMap Syscall.response

/-- The calls of the connection that is accepted as `fd` just before the calls `later`. -/
def connection (fd : ℕ) (later : List Syscall) : List Syscall := Lifetime.tenure Syscall.event fd later

theorem eq_accept_of_event {c : Syscall} {fd : ℕ} (h : c.event = .acquire fd) : c = .accept fd := by
  cases c with
  | accept fd' => rw [Lifetime.Event.acquire.inj h]
  | read fd' r => cases h
  | write fd' b => cases h
  | close fd' => cases h

theorem acquired_iff {fd : ℕ} {calls : List Syscall} :
    Lifetime.Acquired Syscall.event fd calls ↔ .accept fd ∈ calls := by
  constructor
  · rintro ⟨c, hc, hacq⟩
    rwa [← eq_accept_of_event hacq]
  · exact fun h => ⟨_, h, rfl⟩

theorem event_clientCalls {s : AsyncHttpServer} {fd : ℕ} {reads : List ReadResult} {c : Syscall}
    (hc : c ∈ s.clientCalls fd reads) : c.event.name = fd ∧ c.event.isAcquire = false := by
  simp only [clientCalls, List.mem_append, List.mem_map, List.mem_singleton] at hc
  obtain (⟨r, _, rfl⟩ | hc) | rfl := hc
  · exact ⟨rfl, rfl⟩
  · split at hc
    · obtain rfl := List.mem_singleton.mp hc
      exact ⟨rfl, rfl⟩
    · cases hc
  · exact ⟨rfl, rfl⟩

/-- The buffer has grown by the bytes of the reads. -/
theorem received_readCalls {fd : ℕ} {b b' : Text} {reads : List ReadResult}
    (h : readLoop b reads = some b') :
    b ++ received ((readCalls b reads).map (.read fd)) = b' := by
  induction b, reads using readLoop.induct with
  | case1 b =>
      obtain rfl := Option.some.inj h
      exact List.append_nil _
  | case2 b bytes reads hdone =>
      simp only [readLoop, hdone, if_true, Option.some.injEq] at h
      subst h
      simp [readCalls, hdone, received, Syscall.received]
  | case3 b bytes reads hdone ih =>
      simp only [readLoop, hdone] at h
      simp only [readCalls, hdone, received, List.map_cons, List.flatMap_cons, Syscall.received,
        ← List.append_assoc]
      exact ih h
  | case5 b reads =>
      obtain rfl := Option.some.inj h
      exact List.append_nil _
  | _ => cases h

/-- **One call of `handle_client`**: it writes nothing, or one response, made of the bytes it has
read. -/
theorem responses_clientCalls (handler : Option (Text → Text)) (fd : ℕ) (reads : List ReadResult) :
    let calls := clientCalls ⟨handler, ∅⟩ fd reads
    (∀ b, readLoop [] reads = some b → received calls = b) ∧
      (responses calls).length ≤ 1 ∧
      ∀ r ∈ responses calls, r = respond handler (parsePath (received calls)) := by
  have hreads : ∀ rs : List ReadResult, responses (rs.map (.read fd)) = [] := by
    intro rs
    simp [responses, Syscall.response]
  have hbuf : (⟨handler, ∅⟩ : AsyncHttpServer).buf fd = [] := rfl
  simp only [clientCalls, parsed_eq, handleInPlace_eq, hbuf]
  cases hloop : readLoop [] reads with
  | none =>
      simp only [Option.isSome_none, Bool.false_eq_true, if_false, List.append_nil]
      have hnone : responses ((readCalls [] reads).map (.read fd) ++ [.close fd]) = [] := by
        rw [responses, List.filterMap_append, ← responses, hreads]
        rfl
      rw [hnone]
      exact ⟨nofun, Nat.zero_le _, nofun⟩
  | some b =>
      have hwritten : (handleClient ⟨handler, ∅⟩ fd reads).written = respond handler (parsePath b) := by
        unfold handleClient
        rw [show ((⟨handler, ∅⟩ : AsyncHttpServer).readBufs.lookup fd).getD [] = [] from rfl, hloop]
      have hreceived : received ((readCalls [] reads).map (.read fd)) = b :=
        received_readCalls hloop
      simp only [Option.isSome_some, if_true, hwritten]
      have hall : received ((readCalls [] reads).map (.read fd) ++
          [.write fd (respond handler (parsePath b))] ++ [.close fd]) = b := by
        rw [received, List.flatMap_append, List.flatMap_append, ← received, hreceived]
        simp [Syscall.received]
      have hone : responses ((readCalls [] reads).map (.read fd) ++
          [.write fd (respond handler (parsePath b))] ++ [.close fd]) =
            [respond handler (parsePath b)] := by
        rw [responses, List.filterMap_append, List.filterMap_append, ← responses, hreads]
        rfl
      rw [hall, hone]
      refine ⟨fun b' hb' => Option.some.inj hb', le_rfl, fun r hr => List.mem_singleton.mp hr⟩

/-! ### Whole runs -/

namespace Loop

/-- Between two calls of `handle_client` no buffer is left, and every connection is open and
unread or has had one call of `handle_client`. -/
structure Apart (handler : Option (Text → Text)) (s : Loop) : Prop where
  server : s.server = ⟨handler, ∅⟩
  turns : Lifetime.Turns Syscall.event
    (fun fd calls => ∃ reads, calls = clientCalls ⟨handler, ∅⟩ fd reads) s.clients s.trace

theorem Apart.start {handler : Option (Text → Text)} {r : Startup} {s : Loop}
    (h : AsyncHttpServer.start ⟨handler, ∅⟩ r = .ok s) : s.Apart handler := by
  have h := started_of_start h
  refine ⟨h.server, ?_⟩
  rw [h.clients, h.trace]
  exact Lifetime.Turns.nil

/-- One step keeps the connections apart. -/
theorem Apart.move {handler : Option (Text → Text)} {s s' : Loop} {a : Action} (h : s.Apart handler)
    (hok : s.Ok) (hm : Move s a s') : s'.Apart handler := by
  cases hm with
  | @client fd events reads hpc hstop hlisten =>
      refine ⟨?_, ?_⟩
      · -- the buffer of the call is erased by `close_client`
        simp only [Loop.handle, h.server, handleInPlace_eq]
        unfold handleClient
        split <;> rfl
      · simp only [Loop.handle, h.server]
        exact h.turns.turn hok.nodup_clients (hok.mem_clients hpc hstop hlisten)
          (fun c hc => event_clientCalls hc) ⟨reads, rfl⟩
  | accepted hpc hback hfresh => exact ⟨h.server, h.turns.acquire rfl hfresh.1⟩
  | _ => exact ⟨h.server, h.turns⟩

theorem Apart.run {handler : Option (Text → Text)} {r : Startup} {s₀ s : Loop} {as : List Action}
    (hstart : AsyncHttpServer.start ⟨handler, ∅⟩ r = .ok s₀) (hrun : Runs.run step s₀ as = some s) :
    s.Ok ∧ s.Apart handler :=
  Runs.run_invariant (P := fun t => t.Ok ∧ t.Apart handler)
    (fun _ _ _ h hstep => ⟨h.1.move (move_of_step hstep), h.2.move h.1 (move_of_step hstep)⟩)
    ⟨Ok.start hstart, Apart.start hstart⟩ hrun

/-- The buffer that is parsed in a call of `handle_client` holds the bytes of the connection that
has the descriptor now. -/
theorem Apart.parsed {handler : Option (Text → Text)} {s s' : Loop} {fd : ℕ} {reads : List ReadResult}
    {b : Text} (h : s.Apart handler) (hok : s.Ok) (hstep : s.step (.client fd reads) = some s')
    (hb : s.server.parsed fd reads = some b) :
    ∃ pre post, s'.trace = pre ++ .accept fd :: post ∧ .accept fd ∉ post ∧
      b = received (connection fd post) := by
  cases move_of_step hstep with
  | @client _ events _ hpc hstop hlisten =>
      obtain ⟨pre, c, post, htrace, hc, hpost, hnil⟩ :=
        h.turns.waiting (hok.mem_clients hpc hstop hlisten)
      obtain rfl := eq_accept_of_event hc
      have hcalls : connection fd (post ++ clientCalls ⟨handler, ∅⟩ fd reads) =
          clientCalls ⟨handler, ∅⟩ fd reads := by
        rw [connection, Lifetime.tenure_append_of_not_acquired _ hpost, hnil, List.nil_append]
        exact Lifetime.tenure_eq_self (fun c hc => event_clientCalls hc)
      refine ⟨pre, post ++ clientCalls ⟨handler, ∅⟩ fd reads, ?_, ?_, ?_⟩
      · simp only [Loop.handle, h.server, htrace, List.append_assoc, List.cons_append]
      · rw [List.mem_append, not_or, ← acquired_iff]
        exact ⟨hpost, fun hmem => Bool.true_eq_false.mp (event_clientCalls hmem).2⟩
      · rw [hcalls]
        rw [parsed_eq, h.server] at hb
        exact ((responses_clientCalls handler fd reads).1 b hb).symm

/-- **Connections that reuse a descriptor are kept apart.**  In every run of a new server,
whatever numbers `accept4` gives that are not open and whatever the reads return:

* the buffer that `parse_path` is given consists of the bytes read from the connection that has
  the descriptor, since it was accepted;
* a connection is sent at most one response, and it is made of the bytes read from it;
* there are no buffers whenever `run` is about to wait. -/
theorem connections_apart {handler : Option (Text → Text)} {r : Startup} {s₀ s : Loop}
    {as : List Action} (hstart : AsyncHttpServer.start ⟨handler, ∅⟩ r = .ok s₀)
    (hrun : Runs.run step s₀ as = some s) :
    (∀ fd reads s' b, s.step (.client fd reads) = some s' → s.server.parsed fd reads = some b →
      ∃ pre post, s'.trace = pre ++ .accept fd :: post ∧ .accept fd ∉ post ∧
        b = received (connection fd post)) ∧
    (∀ pre fd post, s.trace = pre ++ .accept fd :: post →
      (responses (connection fd post)).length ≤ 1 ∧
        ∀ b ∈ responses (connection fd post),
          b = respond handler (parsePath (received (connection fd post)))) ∧
    (s.pc = .top → s.server.readBufs = ∅) := by
  obtain ⟨hok, hapart⟩ := Apart.run hstart hrun
  refine ⟨fun fd reads s' b hstep hb => hapart.parsed hok hstep hb, fun pre fd post htrace => ?_, ?_⟩
  · obtain ⟨hnil, _⟩ | ⟨⟨reads, hcalls⟩, _⟩ := hapart.turns.turns pre _ post fd htrace rfl
    · rw [connection, hnil]
      exact ⟨Nat.zero_le _, nofun⟩
    · rw [connection, hcalls]
      exact (responses_clientCalls handler fd reads).2
  · intro _
    rw [hapart.server]

/-- A client is answered and closed; the same batch has the listener, the next connection gets its
descriptor, and its request is all that is parsed. -/
theorem connections_apart_reused :
    ∃ s s', Runs.run step booted [.arrive, .wait [3], .next, .accept (.ok 9), .add none,
        .accept .again, .next, .arrive, .wait [9, 3], .client 9 [.data "GET /a HTTP/1.1\r\n\r\n".toList],
        .next, .accept (.ok 9), .add none, .accept .again, .next, .wait [9]] = some s ∧
      s.step (.client 9 [.data "GET /b HTTP/1.1\r\n\r\n".toList]) = some s' ∧
      ∃ pre post, s'.trace = pre ++ .accept 9 :: post ∧ .accept 9 ∉ post ∧
        "GET /b HTTP/1.1\r\n\r\n".toList = received (connection 9 post) := by
  obtain ⟨s, hrun, hsome, hparsed⟩ : ∃ s, Runs.run step booted [.arrive, .wait [3], .next,
      .accept (.ok 9), .add none, .accept .again, .next, .arrive, .wait [9, 3],
      .client 9 [.data "GET /a HTTP/1.1\r\n\r\n".toList], .next, .accept (.ok 9), .add none,
      .accept .again, .next, .wait [9]] = some s ∧
      (s.step (.client 9 [.data "GET /b HTTP/1.1\r\n\r\n".toList])).isSome = true ∧
      s.server.parsed 9 [.data "GET /b HTTP/1.1\r\n\r\n".toList] =
        some "GET /b HTTP/1.1\r\n\r\n".toList := Runs.exists_run_of_any (by decide +kernel)
  obtain ⟨s', hstep⟩ := Option.isSome_iff_exists.mp hsome
  exact ⟨s, s', hrun, hstep, (connections_apart start_booted hrun).1 _ _ _ _ hstep hparsed⟩

end Loop

end AsyncHttpServer

end EbpfMonitor
