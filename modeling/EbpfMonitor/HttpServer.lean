import EbpfMonitor.Lib.Decimal
import Mathlib.Data.List.AList
import Mathlib.Data.List.Infix

/-! # `AsyncHttpServer`: answering a client

The embedding of the request path of `src/http/async_server.h`: `handle_client` with its
`read` loop, `parse_path`, `build_response` and `close_client`.

* **Reads.**  A call of `handle_client` is given the results its `read` calls return.  The loop
  stops at the first read after which the buffer contains a blank line, at `EAGAIN`, or at the
  end of the stream or an error, and in the last case closes without an answer.
* **Buffers.**  `handleClient` reads into a buffer of its own.  `handleInPlace` is the call with the
  map as the source has it: `read_bufs_[fd]` creates the buffer, every `read` appends to it,
  `parse_path` is given the buffer in the map, and `close_client` erases it.
* **Events.**  `Delivery request` is a way for the request to arrive: a list of events, each a
  list of non-empty reads that ends with `EAGAIN`.  `serve` handles the events of a client
  until its descriptor is closed.

After `EAGAIN` the loop falls through to the answer even when the header is not complete, and
the client is closed, so only the first event counts.  `response_indep_of_reads_iff` says for
which pairs of deliveries the answer is the same for every route handler. -/

namespace EbpfMonitor

open Text

/-- The members of `AsyncHttpServer` that `handle_client` uses; descriptors are numbers. -/
structure AsyncHttpServer where
  handler : Option (Text → Text)
  readBufs : AList (fun _ : ℕ => Text)

namespace AsyncHttpServer

/-- `BUF_SIZE`. -/
def bufSize : ℕ := 8192

/-- What a `read` returns: bytes, end of stream, `EAGAIN`, `ECONNRESET` or another error. -/
inductive ReadResult where
  | data (bytes : Text)
  | eof
  | again
  | reset
  | failed

/-- `buf.find("\r\n\r\n") != npos`. -/
def headerComplete (buf : Text) : Bool := decide ("\r\n\r\n".toList <:+: buf)

/-- The `read` loop: the buffer to answer from, or `none` to close without an answer.  When the
results run out, nothing is left to read and `read` returns `EAGAIN`. -/
def readLoop : Text → List ReadResult → Option Text
  | buf, [] => some buf
  | buf, .data bytes :: reads =>
      if headerComplete (buf ++ bytes) then some (buf ++ bytes) else readLoop (buf ++ bytes) reads
  | _, .eof :: _ => none
  | buf, .again :: _ => some buf
  | _, .reset :: _ => none
  | _, .failed :: _ => none

/-- `std::string::find(c, pos)`. -/
def find (c : Char) (s : Text) (pos : ℕ) : Option ℕ := ((s.drop pos).findIdx? (· = c)).map (· + pos)

/-- `std::string::substr(pos, n)`. -/
def substr (s : Text) (pos n : ℕ) : Text := (s.drop pos).take n

def parsePath (req : Text) : Text :=
  match find ' ' req 0 with
  | none => []
  | some sp1 =>
      match find ' ' req (sp1 + 1) with
      | none => []
      | some sp2 => substr req (sp1 + 1) (sp2 - sp1 - 1)

def buildResponse (status : ℕ) (contentType body : Text) : Text :=
  let reason := if status = 200 then "OK".toList else "Not Found".toList
  "HTTP/1.1 ".toList ++ decimal status ++ " ".toList ++ reason ++ "\r\nContent-Type: ".toList ++
    contentType ++ "\r\nContent-Length: ".toList ++ decimal body.length ++
    "\r\nConnection: close\r\n\r\n".toList ++ body

/-- The body of the answer for `path`. -/
def answerBody (handler : Option (Text → Text)) (path : Text) : Text :=
  match handler with
  | some h => h path
  | none => "Not Found".toList

/-- The type of the answer for `path`. -/
def contentType (path : Text) : Text :=
  if path = "/metrics".toList then "text/plain; version=0.0.4; charset=utf-8".toList
  else "application/json".toList

def answerStatus (path body : Text) : ℕ := if path.isEmpty || body.isEmpty then 404 else 200

/-- The answer to a request for `path`. -/
def respond (handler : Option (Text → Text)) (path : Text) : Text :=
  let body := answerBody handler path
  buildResponse (answerStatus path body) (contentType path) body

def closeClient (s : AsyncHttpServer) (fd : ℕ) : AsyncHttpServer :=
  { s with readBufs := s.readBufs.erase fd }

/-- What a call of `handle_client` leads to: the server after it, the bytes written to the
client, and whether the descriptor is still open. -/
structure Turn where
  server : AsyncHttpServer
  written : Text
  isOpen : Bool

def handleClient (s : AsyncHttpServer) (fd : ℕ) (reads : List ReadResult) : Turn :=
  match readLoop ((s.readBufs.lookup fd).getD []) reads with
  | none => ⟨s.closeClient fd, [], false⟩
  | some buf => ⟨s.closeClient fd, respond s.handler (parsePath buf), false⟩

/-- What is in `read_bufs_[fd]`. -/
def buf (s : AsyncHttpServer) (fd : ℕ) : Text := (s.readBufs.lookup fd).getD []

def setBuf (s : AsyncHttpServer) (fd : ℕ) (b : Text) : AsyncHttpServer :=
  { s with readBufs := s.readBufs.insert fd b }

/-- The `read` loop on the buffer in the map, and whether it is left to parse the request. -/
def readInPlace (fd : ℕ) : AsyncHttpServer → List ReadResult → AsyncHttpServer × Bool
  | s, [] => (s, true)
  | s, .data bytes :: reads =>
      let s' := s.setBuf fd (s.buf fd ++ bytes)
      if headerComplete (s'.buf fd) then (s', true) else readInPlace fd s' reads
  | s, .eof :: _ => (s, false)
  | s, .again :: _ => (s, true)
  | s, .reset :: _ => (s, false)
  | s, .failed :: _ => (s, false)

/-- The server when the `read` loop of `handle_client(fd)` is left. -/
def afterReads (s : AsyncHttpServer) (fd : ℕ) (reads : List ReadResult) : AsyncHttpServer × Bool :=
  -- `auto& buf = read_bufs_[fd]` puts an empty buffer into the map when there is none
  readInPlace fd (s.setBuf fd (s.buf fd)) reads

/-- The buffer that `parse_path` is given, if it is called. -/
def parsed (s : AsyncHttpServer) (fd : ℕ) (reads : List ReadResult) : Option Text :=
  if (s.afterReads fd reads).2 then some ((s.afterReads fd reads).1.buf fd) else none

/-- `handle_client(fd)`, with the buffer in the map. -/
def handleInPlace (s : AsyncHttpServer) (fd : ℕ) (reads : List ReadResult) : Turn :=
  match s.parsed fd reads with
  | none => ⟨(s.afterReads fd reads).1.closeClient fd, [], false⟩
  | some buf => ⟨(s.afterReads fd reads).1.closeClient fd, respond s.handler (parsePath buf), false⟩

/-- The events of one client, each with the bytes its reads return before `EAGAIN`; a closed
descriptor gets no further events.  The result is all that is written to the client. -/
def serve (s : AsyncHttpServer) (fd : ℕ) : List (List Text) → Text
  | [] => []
  | reads :: later =>
      let turn := s.handleClient fd (reads.map .data ++ [.again])
      turn.written ++ (if turn.isOpen then turn.server.serve fd later else [])

/-- A way for the request to arrive: events of non-empty reads that give the request. -/
structure Delivery (request : Text) where
  events : List (List Text)
  events_ne : ∀ reads ∈ events, reads ≠ []
  reads_ne : ∀ reads ∈ events, ∀ r ∈ reads, r ≠ [] ∧ r.length ≤ bufSize
  complete : events.flatten.flatten = request

namespace Delivery

variable {request : Text} (d : Delivery request)

/-- The reads of the first event. -/
def first : List Text := d.events.headD []

/-- The number of reads of the first event up to the one that completes the header, all of them
if none does. -/
def readsToAnswer : ℕ :=
  ((List.range d.first.length).find? (fun k => headerComplete (d.first.take k).flatten)).getD
    d.first.length

/-- The bytes that have arrived when the server answers. -/
def arrived : Text := (d.first.take d.readsToAnswer).flatten

end Delivery

/-- The position of the second space, where `parse_path` ends the path. -/
def secondSpace (req : Text) : Option ℕ := (find ' ' req 0).bind (fun sp1 => find ' ' req (sp1 + 1))

/-- The path has arrived when the server answers. -/
def Delivery.PathArrived {request : Text} (d : Delivery request) : Prop :=
  ∃ n, secondSpace request = some n ∧ n < d.arrived.length

/-! ### `parse_path` on a part of the request -/

theorem findIdx_eq_some_iff {c : Char} {s : Text} {i : ℕ} :
    s.findIdx? (· = c) = some i ↔ s[i]? = some c ∧ ∀ j < i, s[j]? ≠ some c := by
  rw [List.findIdx?_eq_some_iff_getElem]
  constructor
  · rintro ⟨hi, hc, hbefore⟩
    refine ⟨?_, fun j hj hjc => ?_⟩
    · rw [List.getElem?_eq_getElem hi, of_decide_eq_true hc]
    · rw [List.getElem?_eq_getElem (by omega)] at hjc
      exact hbefore j hj (decide_eq_true (Option.some.inj hjc))
  · rintro ⟨hc, hbefore⟩
    obtain ⟨hi, hic⟩ := List.getElem?_eq_some_iff.mp hc
    refine ⟨hi, decide_eq_true hic, fun j hj hjc => ?_⟩
    apply hbefore j hj
    rw [List.getElem?_eq_getElem (by omega), of_decide_eq_true hjc]

theorem find_eq_some_iff {c : Char} {s : Text} {pos n : ℕ} :
    find c s pos = some n ↔ pos ≤ n ∧ s[n]? = some c ∧ ∀ j, pos ≤ j → j < n → s[j]? ≠ some c := by
  unfold find
  simp only [Option.map_eq_some_iff, findIdx_eq_some_iff, List.getElem?_drop]
  constructor
  · rintro ⟨i, ⟨hc, hbefore⟩, rfl⟩
    refine ⟨by omega, by rwa [Nat.add_comm], fun j hpos hj => ?_⟩
    have := hbefore (j - pos) (by omega)
    rwa [Nat.add_sub_cancel' hpos] at this
  · rintro ⟨hpos, hc, hbefore⟩
    refine ⟨n - pos, ⟨by rwa [Nat.add_sub_cancel' hpos], fun j hj => ?_⟩, by omega⟩
    exact hbefore (pos + j) (by omega) (by omega)

/-- A search in a part of a text finds what a search in the whole finds inside the part. -/
theorem find_append_iff {c : Char} {b : Text} (rest : Text) {pos n : ℕ} :
    find c b pos = some n ↔ find c (b ++ rest) pos = some n ∧ n < b.length := by
  rw [find_eq_some_iff, find_eq_some_iff]
  constructor
  · rintro ⟨hpos, hc, hbefore⟩
    obtain ⟨hn, _⟩ := List.getElem?_eq_some_iff.mp hc
    refine ⟨⟨hpos, by rwa [List.getElem?_append_left hn], fun j hj hjn => ?_⟩, hn⟩
    rw [List.getElem?_append_left (by omega)]
    exact hbefore j hj hjn
  · rintro ⟨⟨hpos, hc, hbefore⟩, hn⟩
    rw [List.getElem?_append_left hn] at hc
    refine ⟨hpos, hc, fun j hj hjn => ?_⟩
    have := hbefore j hj hjn
    rwa [List.getElem?_append_left (by omega)] at this

theorem secondSpace_append_iff {b : Text} (rest : Text) {n : ℕ} :
    secondSpace b = some n ↔ secondSpace (b ++ rest) = some n ∧ n < b.length := by
  unfold secondSpace
  simp only [Option.bind_eq_some_iff]
  constructor
  · rintro ⟨sp1, h1, h2⟩
    obtain ⟨h2', hn⟩ := (find_append_iff rest).mp h2
    exact ⟨⟨sp1, ((find_append_iff rest).mp h1).1, h2'⟩, hn⟩
  · rintro ⟨⟨sp1, h1, h2⟩, hn⟩
    have hle := (find_eq_some_iff.mp h2).1
    exact ⟨sp1, (find_append_iff rest).mpr ⟨h1, by omega⟩, (find_append_iff rest).mpr ⟨h2, hn⟩⟩

theorem parsePath_eq_nil_of_secondSpace {req : Text} (h : secondSpace req = none) : parsePath req = [] := by
  unfold parsePath
  unfold secondSpace at h
  cases h1 : find ' ' req 0 with
  | none => rfl
  | some sp1 =>
      rw [h1, Option.bind_some] at h
      simp only [h]

/-- Once the second space is there, the path does not change any more. -/
theorem parsePath_append {b : Text} (rest : Text) {n : ℕ} (h : secondSpace b = some n) :
    parsePath (b ++ rest) = parsePath b := by
  obtain ⟨sp1, h1, h2⟩ := Option.bind_eq_some_iff.mp h
  obtain ⟨h1', hsp1⟩ := (find_append_iff rest).mp h1
  obtain ⟨h2', hn⟩ := (find_append_iff rest).mp h2
  unfold parsePath
  simp only [h1, h2, h1', h2', substr]
  rw [List.drop_append_of_le_length (by omega), List.take_append_of_le_length (by simp; omega)]

/-! ### The buffer at the time of the answer -/

theorem readLoop_spec (reads : List Text) (buf : Text) :
    ∃ k ≤ reads.length, readLoop buf (reads.map .data ++ [.again]) = some (buf ++ (reads.take k).flatten) ∧
      (k = reads.length ∨ headerComplete (buf ++ (reads.take k).flatten) = true) ∧
      ∀ j, 0 < j → j < k → headerComplete (buf ++ (reads.take j).flatten) = false := by
  induction reads generalizing buf with
  | nil => exact ⟨0, le_refl _, by simp [readLoop], Or.inl rfl, by omega⟩
  | cons r reads ih =>
      simp only [List.map_cons, List.cons_append, readLoop]
      cases hr : headerComplete (buf ++ r) with
      | true => exact ⟨1, by simp, by simp, Or.inr (by simpa using hr), by omega⟩
      | false =>
          obtain ⟨k, hk, heq, hlast, hbefore⟩ := ih (buf ++ r)
          refine ⟨k + 1, by simpa using hk, ?_, ?_, ?_⟩
          · simpa using heq
          · simpa [List.append_assoc] using hlast
          · intro j hj hjk
            obtain ⟨j, rfl⟩ : ∃ i, j = i + 1 := ⟨j - 1, by omega⟩
            cases j with
            | zero => simpa using hr
            | succ j => simpa [List.append_assoc] using hbefore (j + 1) (by omega) (by omega)

theorem headerComplete_nil : headerComplete [] = false := by decide

namespace Delivery

variable {request : Text} (d : Delivery request)

/-- The loop stops after `readsToAnswer` reads. -/
theorem readLoop_eq : readLoop [] (d.first.map .data ++ [.again]) = some d.arrived := by
  obtain ⟨k, hk, heq, hlast, hbefore⟩ := readLoop_spec d.first []
  simp only [List.nil_append] at heq hlast hbefore
  have hnone : ∀ j < k, headerComplete (d.first.take j).flatten = false := by
    intro j hj
    cases j with
    | zero => exact headerComplete_nil
    | succ j => exact hbefore (j + 1) (by omega) hj
  have hcount : d.readsToAnswer = k := by
    unfold readsToAnswer
    rcases Nat.lt_or_ge k d.first.length with hlt | hge
    · rw [List.find?_range_eq_some.mpr ⟨hlast.resolve_left (by omega), List.mem_range.mpr hlt,
        fun j hj => by rw [hnone j hj]; rfl⟩]
      rfl
    · rw [List.find?_range_eq_none.mpr (fun j hj => by rw [hnone j (by omega)]; rfl)]
      exact le_antisymm hge hk
  rw [heq, arrived, hcount]

theorem arrived_prefix : d.arrived <+: request := by
  obtain ⟨later, hlater⟩ : ∃ later, d.first ++ later = d.events.flatten := by
    unfold first
    cases d.events with
    | nil => exact ⟨[], rfl⟩
    | cons reads events => exact ⟨events.flatten, rfl⟩
  have hflat := congrArg List.flatten hlater
  rw [d.complete, ← List.take_append_drop d.readsToAnswer d.first, List.append_assoc,
    List.flatten_append] at hflat
  exact ⟨_, hflat⟩

/-- An empty request arrives with no event. -/
theorem events_eq_nil (h : request = []) : d.events = [] := by
  cases he : d.events with
  | nil => rfl
  | cons reads later =>
      have hmem : reads ∈ d.events := by rw [he]; exact List.mem_cons_self
      obtain ⟨r, hr⟩ := List.exists_mem_of_ne_nil reads (d.events_ne reads hmem)
      have hall := d.complete.trans h
      rw [List.flatten_eq_nil_iff] at hall
      exact absurd (hall r (List.mem_flatten.mpr ⟨reads, hmem, hr⟩)) (d.reads_ne reads hmem r hr).1

/-- Whether the path arrived decides what `parse_path` makes of the buffer. -/
theorem parsePath_arrived_of (h : d.PathArrived) : parsePath d.arrived = parsePath request := by
  obtain ⟨n, hn, hlt⟩ := h
  obtain ⟨rest, hrest⟩ := d.arrived_prefix
  rw [← hrest] at hn
  have hb := (secondSpace_append_iff rest).mpr ⟨hn, hlt⟩
  rw [← parsePath_append rest hb, hrest]

theorem parsePath_arrived_of_not (h : ¬ d.PathArrived) : parsePath d.arrived = [] := by
  apply parsePath_eq_nil_of_secondSpace
  cases hs : secondSpace d.arrived with
  | none => rfl
  | some n =>
      obtain ⟨rest, hrest⟩ := d.arrived_prefix
      obtain ⟨hn, hlt⟩ := (secondSpace_append_iff rest).mp hs
      rw [hrest] at hn
      exact absurd ⟨n, hn, hlt⟩ h

/-- **The answer is made from what has arrived in the first event**, whatever comes later. -/
theorem serve_eq (s : AsyncHttpServer) {fd : ℕ} (hfd : s.readBufs.lookup fd = none)
    (hne : request ≠ []) : s.serve fd d.events = respond s.handler (parsePath d.arrived) := by
  have hloop := d.readLoop_eq
  have hcomplete := d.complete
  unfold first at hloop
  cases he : d.events with
  | nil =>
      rw [he] at hcomplete
      exact absurd hcomplete.symm hne
  | cons reads later =>
      rw [he, List.headD_cons] at hloop
      simp only [serve, handleClient, hfd, Option.getD_none, hloop, Bool.false_eq_true, if_false,
        List.append_nil]

end Delivery

/-- The status can be read off the response. -/
theorem buildResponse_status_inj {status status' : ℕ} {contentType contentType' body body' : Text}
    (h : buildResponse status contentType body = buildResponse status' contentType' body') :
    status = status' := by
  unfold buildResponse at h
  simp only [List.append_assoc] at h
  exact (decimal_append_inj (endsNumber_append _ (by decide)) (endsNumber_append _ (by decide))
    (List.append_cancel_left h)).1

/-- A server that answers every request with a non-empty body. -/
def echoServer : AsyncHttpServer := ⟨some (fun _ => "x".toList), ∅⟩

theorem respond_ne {path : Text} (hpath : path ≠ []) :
    respond echoServer.handler path ≠ respond echoServer.handler [] := by
  intro h
  have hstatus := buildResponse_status_inj h
  unfold answerStatus at hstatus
  rw [List.isEmpty_eq_false_iff.mpr hpath] at hstatus
  change 200 = 404 at hstatus
  omega

theorem Delivery.serve_congr {request : Text} {d₁ d₂ : Delivery request}
    (h : parsePath d₁.arrived = parsePath d₂.arrived) (s : AsyncHttpServer) {fd : ℕ}
    (hfd : s.readBufs.lookup fd = none) : s.serve fd d₁.events = s.serve fd d₂.events := by
  by_cases hne : request = []
  · rw [d₁.events_eq_nil hne, d₂.events_eq_nil hne]
  · rw [d₁.serve_eq s hfd hne, d₂.serve_eq s hfd hne, h]

/-- **The answer does not depend on how the request is split into reads** for exactly those pairs
of deliveries in which the path, up to the second space, arrives before the answer in both or
in neither, unless the path is empty anyway. -/
theorem response_indep_of_reads_iff (request : Text) (d₁ d₂ : Delivery request) :
    (∀ (s : AsyncHttpServer) (fd : ℕ), s.readBufs.lookup fd = none →
      s.serve fd d₁.events = s.serve fd d₂.events) ↔
      ((d₁.PathArrived ↔ d₂.PathArrived) ∨ parsePath request = []) := by
  constructor
  · intro h
    by_cases hpath : parsePath request = []
    · exact Or.inr hpath
    · have hne : request ≠ [] := by
        rintro rfl
        exact hpath rfl
      have hserve := h echoServer 0 rfl
      rw [d₁.serve_eq echoServer rfl hne, d₂.serve_eq echoServer rfl hne] at hserve
      refine Or.inl ⟨fun h₁ => ?_, fun h₂ => ?_⟩
      · by_contra h₂
        rw [d₁.parsePath_arrived_of h₁, d₂.parsePath_arrived_of_not h₂] at hserve
        exact respond_ne hpath hserve
      · by_contra h₁
        rw [d₁.parsePath_arrived_of_not h₁, d₂.parsePath_arrived_of h₂] at hserve
        exact respond_ne hpath hserve.symm
  · intro h s fd hfd
    refine Delivery.serve_congr ?_ s hfd
    by_cases h₁ : d₁.PathArrived <;> by_cases h₂ : d₂.PathArrived
    · rw [d₁.parsePath_arrived_of h₁, d₂.parsePath_arrived_of h₂]
    · rw [d₁.parsePath_arrived_of h₁, d₂.parsePath_arrived_of_not h₂]
      exact h.resolve_left (fun hiff => h₂ (hiff.mp h₁))
    · rw [d₁.parsePath_arrived_of_not h₁, d₂.parsePath_arrived_of h₂]
      exact (h.resolve_left (fun hiff => h₁ (hiff.mpr h₂))).symm
    · rw [d₁.parsePath_arrived_of_not h₁, d₂.parsePath_arrived_of_not h₂]

/-! ### The buffer in the map -/

@[simp] theorem buf_setBuf (s : AsyncHttpServer) (fd : ℕ) (b : Text) : (s.setBuf fd b).buf fd = b := by
  simp [buf, setBuf]

theorem closeClient_setBuf (s : AsyncHttpServer) (fd : ℕ) (b : Text) :
    (s.setBuf fd b).closeClient fd = s.closeClient fd := by
  have herase : (s.readBufs.insert fd b).erase fd = s.readBufs.erase fd := by
    apply AList.ext
    exact List.kerase_cons_eq (s := (⟨fd, b⟩ : Sigma fun _ : ℕ => Text)) rfl
  simp only [closeClient, setBuf, herase]

/-- The loop changes the buffer of `fd` only. -/
theorem closeClient_readInPlace (s : AsyncHttpServer) (fd : ℕ) (reads : List ReadResult) :
    (readInPlace fd s reads).1.closeClient fd = s.closeClient fd := by
  induction s, reads using readInPlace.induct fd with
  | case2 s bytes reads s' hdone =>
      simp only [readInPlace, s', hdone, if_true]
      exact closeClient_setBuf ..
  | case3 s bytes reads s' hdone ih =>
      simp only [readInPlace, s', hdone]
      exact ih.trans (closeClient_setBuf ..)
  | _ => rfl

/-- The loop on the map computes what the loop on a buffer of its own does. -/
theorem readInPlace_eq_readLoop (s : AsyncHttpServer) (fd : ℕ) (reads : List ReadResult) :
    (if (readInPlace fd s reads).2 then some ((readInPlace fd s reads).1.buf fd) else none) =
      readLoop (s.buf fd) reads := by
  induction s, reads using readInPlace.induct fd with
  | case2 s bytes reads s' hdone =>
      simp only [s', buf_setBuf] at hdone
      simp [readInPlace, readLoop, hdone]
  | case3 s bytes reads s' hdone ih =>
      simp only [s', buf_setBuf] at hdone ih
      simp only [readInPlace, readLoop, buf_setBuf, hdone]
      exact ih
  | _ => rfl

theorem parsed_eq (s : AsyncHttpServer) (fd : ℕ) (reads : List ReadResult) :
    s.parsed fd reads = readLoop (s.buf fd) reads := by
  unfold parsed afterReads
  rw [readInPlace_eq_readLoop, buf_setBuf]

/-- **The buffer does not outlive the call**: whichever way `handle_client` is left, its effect is
that of a call with a buffer of its own. -/
theorem handleInPlace_eq (s : AsyncHttpServer) (fd : ℕ) (reads : List ReadResult) :
    s.handleInPlace fd reads = s.handleClient fd reads := by
  have hclose : (s.afterReads fd reads).1.closeClient fd = s.closeClient fd :=
    (closeClient_readInPlace ..).trans (closeClient_setBuf ..)
  unfold handleInPlace handleClient
  rw [parsed_eq, hclose]
  rfl

/-! ### A request in two pieces -/

def metricsRequest : Text := "GET /metrics HTTP/1.1\r\n\r\n".toList

/-- The whole request in one read. -/
def oneRead : Delivery metricsRequest where
  events := [[metricsRequest]]
  events_ne := by decide
  reads_ne := by decide
  complete := by decide

/-- The request line is cut inside the path, and the rest arrives with a second event. -/
def twoEvents : Delivery metricsRequest where
  events := [["GET /met".toList], ["rics HTTP/1.1\r\n\r\n".toList]]
  events_ne := by decide
  reads_ne := by decide
  complete := by decide

/-- A server with the route `/metrics` only. -/
def metricsServer : AsyncHttpServer :=
  ⟨some (fun path => if path = "/metrics".toList then "up 1\n".toList else []), ∅⟩

/-- **A split request is answered with 404.** -/
theorem response_depends_on_reads :
    headerComplete metricsRequest = true ∧
      metricsServer.serve 7 oneRead.events = buildResponse 200
        "text/plain; version=0.0.4; charset=utf-8".toList "up 1\n".toList ∧
      metricsServer.serve 7 twoEvents.events = buildResponse 404 "application/json".toList [] ∧
      metricsServer.serve 7 oneRead.events ≠ metricsServer.serve 7 twoEvents.events := by
  refine ⟨by decide +kernel, by decide +kernel, by decide +kernel, by decide +kernel⟩

end AsyncHttpServer

end EbpfMonitor
