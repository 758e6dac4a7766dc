import EbpfMonitor.Lib.HttpMessage
import EbpfMonitor.HttpServer

/-! # Requests and responses as HTTP has them

**Requests.**  `parse_path` takes what stands between the first two spaces of the whole buffer.  The path of a
request stands between the first two spaces of its first line, and the two agree when that line has
two spaces.  When it has not, the search runs on into the header fields and the body.

`parsePath_of_line_iff` says for every first line whether `parse_path` depends on that line only and
finds its path: exactly when the line has two spaces.

**Responses.**  `build_response` writes a response of HTTP/1.1 with three header fields, so that
`buildResponse_decodes` follows from the library: the body may contain anything, since its length is
written before it. -/

namespace EbpfMonitor

namespace AsyncHttpServer

open Text HttpMessage

/-! ### The first line -/

/-- The bytes before the first line break, all of them if there is none. -/
def firstLine (req : Text) : Text :=
  match List.cut crlf req with
  | some (line, _) => line
  | none => req

theorem firstLine_of_cut {r line rest : Text} (h : List.cut crlf r = some (line, rest)) :
    firstLine r = line := by
  rw [firstLine, h]

/-- A request is its first line, or goes on after it with a line break. -/
theorem eq_firstLine_append (r : Text) : ∃ rest, r = firstLine r ++ rest := by
  unfold firstLine
  cases h : List.cut crlf r with
  | none => exact ⟨[], (List.append_nil r).symm⟩
  | some p => exact ⟨crlf ++ p.2, List.eq_of_cut h⟩

/-- The line break that ends a first line is not there before. -/
theorem not_infix_firstLine (r : Text) : ¬ crlf <:+: firstLine r ++ ['\r'] := by
  unfold firstLine
  cases h : List.cut crlf r with
  | some p => exact List.not_infix_of_cut crlf_ne_nil h
  | none =>
      intro hinfix
      obtain ⟨a, b, hab⟩ := infix_of_infix_concat hinfix
      rw [List.append_assoc] at hab
      exact List.cut_ne_none hab.symm h

/-- Every continuation of a first line after a line break has that first line. -/
theorem firstLine_append_crlf (r rest : Text) :
    firstLine (firstLine r ++ (crlf ++ rest)) = firstLine r :=
  firstLine_of_cut (List.cut_append crlf_ne_nil (not_infix_firstLine r))

/-! ### The path between two spaces -/

/-- The line is a method, a path and a rest, separated by spaces. -/
def RequestLine (line path : Text) : Prop :=
  ∃ method rest, line = method ++ ' ' :: (path ++ ' ' :: rest) ∧ ' ' ∉ method ∧ path ≠ [] ∧ ' ' ∉ path

/-- A search from a position after which the character does not come for `a`. -/
theorem find_of_notMem {c : Char} {a : Text} (before : Text) (ha : c ∉ a) (after : Text) :
    find c (before ++ (a ++ c :: after)) before.length = some (before.length + a.length) := by
  rw [find_eq_some_iff]
  refine ⟨Nat.le_add_right _ _, ?_, fun j hpos hj hc => ha ?_⟩
  · rw [List.getElem?_append_right (Nat.le_add_right _ _), Nat.add_sub_cancel_left,
      List.getElem?_append_right (le_refl _), Nat.sub_self]
    rfl
  · rw [List.getElem?_append_right hpos, List.getElem?_append_left (by omega)] at hc
    exact List.mem_of_getElem? hc

/-- **`parse_path` finds what stands between the first two spaces.** -/
theorem parsePath_between {method path : Text} (hm : ' ' ∉ method) (hp : ' ' ∉ path) (rest : Text) :
    parsePath (method ++ ' ' :: (path ++ ' ' :: rest)) = path := by
  have h1 : find ' ' (method ++ ' ' :: (path ++ ' ' :: rest)) 0 = some method.length := by
    have hfind := find_of_notMem [] hm (path ++ ' ' :: rest)
    rwa [List.length_nil, Nat.zero_add] at hfind
  have h2 : find ' ' (method ++ ' ' :: (path ++ ' ' :: rest)) (method.length + 1) =
      some (method.length + 1 + path.length) := by
    have hfind := find_of_notMem (method ++ [' ']) hp rest
    rwa [List.append_assoc, List.length_append] at hfind
  unfold parsePath
  simp only [h1, h2, substr]
  have hdrop : (method ++ ' ' :: (path ++ ' ' :: rest)).drop (method.length + 1) =
      path ++ ' ' :: rest := by
    rw [List.drop_append, List.drop_eq_nil_of_le (by omega), Nat.add_sub_cancel_left]
    rfl
  rw [hdrop, show method.length + 1 + path.length - method.length - 1 = path.length by omega,
    List.take_left]

/-- A text with two spaces, cut at them. -/
theorem exists_of_two_le_count {line : Text} (h : 2 ≤ line.count ' ') :
    ∃ method path rest, line = method ++ ' ' :: (path ++ ' ' :: rest) ∧ ' ' ∉ method ∧ ' ' ∉ path := by
  have hmem : ' ' ∈ line := List.count_pos_iff.mp (by omega)
  obtain ⟨method, after, rfl, hm⟩ := List.eq_append_cons_of_mem hmem
  rw [List.count_append, List.count_cons_self, List.count_eq_zero_of_not_mem hm] at h
  have hmem' : ' ' ∈ after := List.count_pos_iff.mp (by omega)
  obtain ⟨path, rest, rfl, hp⟩ := List.eq_append_cons_of_mem hmem'
  exact ⟨method, path, rest, rfl, hm, hp⟩

theorem RequestLine.two_le_count {line path : Text} (h : RequestLine line path) :
    2 ≤ line.count ' ' := by
  obtain ⟨method, rest, rfl, -⟩ := h
  simp only [List.count_append, List.count_cons_self]
  omega

/-- A first line with less than two spaces can be continued so that a path is found. -/
theorem parsePath_continued {line : Text} (h : line.count ' ' < 2) :
    parsePath (line ++ (crlf ++ " x ".toList)) ≠ [] := by
  by_cases hmem : ' ' ∈ line
  · -- the path begins in the line and goes on over the line break
    obtain ⟨method, after, rfl, hm⟩ := List.eq_append_cons_of_mem hmem
    rw [List.count_append, List.count_cons_self] at h
    have hafter : ' ' ∉ after := List.count_eq_zero.mp (by omega)
    have hpath : ' ' ∉ after ++ crlf := by
      rw [List.mem_append, not_or]
      exact ⟨hafter, by decide⟩
    have htext : method ++ ' ' :: after ++ (crlf ++ " x ".toList) =
        method ++ ' ' :: (after ++ crlf ++ ' ' :: "x ".toList) := by simp
    rw [htext, parsePath_between hm hpath]
    exact List.append_ne_nil_of_right_ne_nil _ (List.cons_ne_nil _ _)
  · have hm : ' ' ∉ line ++ crlf := by
      rw [List.mem_append, not_or]
      exact ⟨hmem, by decide⟩
    have htext : line ++ (crlf ++ " x ".toList) = line ++ crlf ++ ' ' :: (['x'] ++ ' ' :: []) := by
      simp
    rw [htext, parsePath_between hm (by decide)]
    exact List.cons_ne_nil _ _

/-- **`parse_path` depends on the first line only, and finds its path, exactly for the lines with
two spaces.**  For every request: all requests with the same first line give the same result, a
non-empty result is the path of that line, and the path of that line is the result, iff the first
line has at least two spaces. -/
theorem parsePath_of_line_iff (request : Text) :
    (∀ r, firstLine r = firstLine request → parsePath r = parsePath request ∧
      (parsePath r ≠ [] → RequestLine (firstLine r) (parsePath r)) ∧
      ∀ path, RequestLine (firstLine r) path → parsePath r = path) ↔
    2 ≤ (firstLine request).count ' ' := by
  constructor
  · intro h
    by_contra hcount
    have hline := firstLine_append_crlf request " x ".toList
    have hform := (h _ hline).2.1 (parsePath_continued (by omega))
    rw [hline] at hform
    exact hcount hform.two_le_count
  · intro hcount r hr
    obtain ⟨method, path, rest, hline, hm, hp⟩ := exists_of_two_le_count hcount
    have hpath : ∀ t, firstLine t = firstLine request → parsePath t = path := by
      intro t ht
      obtain ⟨more, hmore⟩ := eq_firstLine_append t
      rw [hmore, ht, hline, List.append_assoc, List.cons_append, List.append_assoc, List.cons_append]
      exact parsePath_between hm hp (rest ++ more)
    refine ⟨(hpath r hr).trans (hpath request rfl).symm, fun hne => ?_, ?_⟩
    · rw [hpath r hr] at hne
      rw [hr, hpath r hr]
      exact ⟨method, rest, hline, hm, hne, hp⟩
    · rintro path' ⟨method', rest', hline', hm', -, hp'⟩
      obtain ⟨more, hmore⟩ := eq_firstLine_append r
      rw [hmore, hline', List.append_assoc, List.cons_append, List.append_assoc, List.cons_append]
      exact parsePath_between hm' hp' (rest' ++ more)

/-- Two requests without a version in their first line, `GET /metrics`.  The one with a header field
gives a path that reaches over the line break, the other gives none. -/
theorem parsePath_over_line_break :
    firstLine "GET /metrics\r\nHost: x\r\n\r\n".toList = firstLine "GET /metrics\r\n\r\n".toList ∧
      parsePath "GET /metrics\r\nHost: x\r\n\r\n".toList = "/metrics\r\nHost:".toList ∧
      parsePath "GET /metrics\r\n\r\n".toList = [] := by
  decide

/-! ### The response -/

/-- The response `build_response` writes. -/
def response (status : ℕ) (contentType body : Text) : Response where
  status := status
  reason := if status = 200 then "OK".toList else "Not Found".toList
  fields := [("Content-Type".toList, contentType), ("Content-Length".toList, decimal body.length),
    ("Connection".toList, "close".toList)]
  body := body

theorem buildResponse_eq_encode (status : ℕ) (contentType body : Text) :
    buildResponse status contentType body = encode (response status contentType body) := by
  have hversion : "HTTP/1.1 ".toList = version ++ " ".toList := rfl
  have htype : "\r\nContent-Type: ".toList = crlf ++ ("Content-Type".toList ++ [':', ' ']) := rfl
  have hlength : "\r\nContent-Length: ".toList = crlf ++ ("Content-Length".toList ++ [':', ' ']) := rfl
  have hclose : "\r\nConnection: close\r\n\r\n".toList =
      crlf ++ ("Connection".toList ++ ([':', ' '] ++ ("close".toList ++ (crlf ++ crlf)))) := rfl
  have hspace : " ".toList = [' '] := rfl
  unfold buildResponse encode statusLine response
  rw [hversion, htype, hlength, hclose, hspace]
  generalize (if status = 200 then "OK".toList else "Not Found".toList) = reason
  generalize "Content-Type".toList = name₁, "Content-Length".toList = name₂,
    "Connection".toList = name₃, "close".toList = value₃
  simp only [fieldLine, List.map_cons, List.map_nil, List.flatMap_cons, List.flatMap_nil,
    List.append_assoc, List.cons_append, List.nil_append, List.append_nil]

/-- A content type without a line break and blanks around it makes a well-formed response. -/
theorem wellFormed_response {status : ℕ} (hge : 100 ≤ status) (hlt : status < 1000)
    {contentType : Text} (hvalue : '\r' ∉ contentType) (htrim : trim contentType = contentType)
    (body : Text) : WellFormed (response status contentType body) where
  status_ge := hge
  status_lt := hlt
  reason := by
    simp only [response]
    split_ifs <;> decide
  fields := by
    simp only [response, List.forall_mem_cons]
    exact ⟨isField (by decide) (by decide) hvalue htrim, isField_decimal (by decide) (by decide) _,
      isField (by decide) (by decide) (by decide) (by decide), by simp⟩
  length := Numeral.readNat_decimal body.length

/-- **Responses are framed correctly for every body.**  A reader of HTTP/1.1 finds in what
`build_response` writes the status, the content type and the body, and nothing is left. -/
theorem buildResponse_decodes (status : ℕ) (hstatus : status = 200 ∨ status = 404)
    (contentType : Text)
    (htype : contentType = "text/plain; version=0.0.4; charset=utf-8".toList ∨
      contentType = "application/json".toList) (body : Text) :
    ∃ r, decode (buildResponse status contentType body) = some (r, []) ∧ r.status = status ∧
      valuesOf "Content-Type".toList r.fields = [contentType] ∧ r.body = body := by
  have hwf : WellFormed (response status contentType body) := by
    refine wellFormed_response (by omega) (by omega) ?_ ?_ body
    · rcases htype with rfl | rfl <;> decide
    · rcases htype with rfl | rfl <;> decide
  refine ⟨response status contentType body, ?_, rfl, rfl, rfl⟩
  rw [buildResponse_eq_encode, ← List.append_nil (encode _)]
  exact decode_encode hwf []

/-- A body that looks like the end of a header. -/
theorem buildResponse_decodes_blank_line :
    ∃ r, decode (buildResponse 200 "application/json".toList "\r\n\r\nContent-Length: 0\r\n".toList) =
        some (r, []) ∧ r.status = 200 ∧
      valuesOf "Content-Type".toList r.fields = ["application/json".toList] ∧
      r.body = "\r\n\r\nContent-Length: 0\r\n".toList :=
  buildResponse_decodes 200 (Or.inl rfl) _ (Or.inr rfl) _

end AsyncHttpServer

end EbpfMonitor
