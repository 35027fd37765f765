import Pine.Http.Injection

/-!
# Http — ContentLength

Whether a message announces its own body size. `set_body` writes or
erases the header with the body, in both classes, and no other setter
touches the two. A response is built by setters alone, so it always
agrees. The constructor of `http_request` that takes all fields stores a
body without the header, and it stays so until `set_body` is called
(`length_agrees_iff`).
-/

namespace Pine

open SortedMap

/-- The header has the size of the body, or is not there where the body is
empty; and the serialized message has it as a line. -/
structure LengthAgrees (headers : HeaderMap) (body text : Bytes) : Prop where
  header : headers.find? contentLength = if body = [] then none else some (decimal body.length)
  line : body ≠ [] → headerLine (contentLength, decimal body.length) <:+: text

theorem headerLine_within {m : HeaderMap} {name value : Bytes} (h : m.find? name = some value) :
    headerLine (name, value) <:+: headerLines m.entries := by
  obtain ⟨before, behind, hentries, _⟩ := entries_split h
  rw [hentries, headerLines, List.flatMap_append, List.flatMap_cons]
  exact ⟨before.flatMap headerLine, behind.flatMap headerLine, by simp⟩

/-- What a message serializes its headers into has the line. -/
theorem LengthAgrees.of_header {headers : HeaderMap} {body text : Bytes}
    (htext : headerLines headers.entries <:+: text)
    (h : headers.find? contentLength = if body = [] then none else some (decimal body.length)) :
    LengthAgrees headers body text := by
  refine ⟨h, ?_⟩
  intro hbody
  rw [if_neg hbody] at h
  exact (headerLine_within h).trans htext

/-- The headers after `set_body`, in both classes. -/
theorem find?_setBody (headers : HeaderMap) (value : Bytes) :
    (if value = [] then headers.erase contentLength
      else headers.insertOrAssign contentLength (decimal value.length)).find? contentLength
      = if value = [] then none else some (decimal value.length) := by
  by_cases hvalue : value = [] <;> simp [hvalue]

/-- The headers after `set_header`, in both classes. -/
theorem find?_setHeader {name : Bytes} (h : some name ≠ some contentLength) (headers : HeaderMap)
    (value : Bytes) :
    (headers.insertOrAssign name value).find? contentLength = headers.find? contentLength := by
  have hne : ¬ name = contentLength := fun heq => h (congrArg some heq)
  rw [find?_insertOrAssign, if_neg hne]

/-! ## Requests -/

namespace HttpRequest

/-- The constructors of `http_request`. -/
inductive Constructor where
  | default
  | fields (method : HttpMethod) (uri : Bytes) (version : HttpVersion) (headers : HeaderMap)
      (body : Bytes)
  deriving DecidableEq

/-- `http_request::http_request`. -/
def construct : Constructor → HttpRequest
  | .default => {}
  | .fields method uri version headers body => { method, uri, version, headers, body }

/-- A call of a setter. -/
inductive Setter where
  | setMethod (value : HttpMethod)
  | setUri (value : Bytes)
  | setVersion (value : HttpVersion)
  | setHeader (name value : Bytes)
  | setBody (value : Bytes)
  deriving DecidableEq

/-- The request after the call. -/
def call (r : HttpRequest) : Setter → HttpRequest
  | .setMethod value => r.setMethod value
  | .setUri value => r.setUri value
  | .setVersion value => r.setVersion value
  | .setHeader name value => r.setHeader name value
  | .setBody value => r.setBody value

/-- A constructed request after the calls. -/
def build (c : Constructor) (calls : List Setter) : HttpRequest := calls.foldl call (construct c)

/-- The name a call passes to `set_header`. -/
def Setter.headerName : Setter → Option Bytes
  | .setHeader name _ => some name
  | _ => none

/-- The request announces its own body size. -/
def AnnouncesLength (r : HttpRequest) : Prop := LengthAgrees r.headers r.body r.toString

theorem build_concat (c : Constructor) (calls : List Setter) (last : Setter) :
    build c (calls ++ [last]) = (build c calls).call last := by
  rw [build, List.foldl_append]
  rfl

theorem announcesLength_of_header {r : HttpRequest}
    (h : r.headers.find? contentLength
      = if r.body = [] then none else some (decimal r.body.length)) : r.AnnouncesLength := by
  refine .of_header ⟨r.requestLine ++ crlf, crlf ++ r.body, ?_⟩ h
  simp [toString]

/-- **What the calls leave**: the header of the body last set, or the body
of the constructor without a header. -/
theorem build_cases {c : Constructor} {calls : List Setter}
    (hheaders : (construct c).headers.find? contentLength = none)
    (hcalls : ∀ call ∈ calls, call.headerName ≠ some contentLength) :
    ((∃ value, .setBody value ∈ calls) ∧ (build c calls).AnnouncesLength) ∨
      ((¬ ∃ value, .setBody value ∈ calls) ∧ (build c calls).body = (construct c).body ∧
        (build c calls).headers.find? contentLength = none) := by
  induction calls using List.reverseRecOn with
  | nil => exact .inr ⟨by simp, rfl, hheaders⟩
  | append_singleton calls last ih =>
      obtain ⟨hothers, hlast⟩ := List.forall_mem_append.mp hcalls
      have hname := hlast last List.mem_cons_self
      rw [build_concat]
      cases last with
      | setBody value =>
          exact .inl ⟨⟨value, by simp⟩, announcesLength_of_header (find?_setBody _ value)⟩
      | setHeader name value =>
          have hkeep := find?_setHeader hname (build c calls).headers value
          rcases ih hothers with ⟨⟨body, hset⟩, hagrees⟩ | ⟨hset, hbody, hnone⟩
          · exact .inl ⟨⟨body, by simp [hset]⟩,
              announcesLength_of_header (hkeep.trans hagrees.header)⟩
          · exact .inr ⟨by simpa using hset, hbody, hkeep.trans hnone⟩
      | _ =>
          rcases ih hothers with ⟨⟨body, hset⟩, hagrees⟩ | ⟨hset, hbody, hnone⟩
          · exact .inl ⟨⟨body, by simp [hset]⟩, announcesLength_of_header hagrees.header⟩
          · exact .inr ⟨by simpa using hset, hbody, hnone⟩

/-- A request announces its body size unless the constructor gave it its
body. -/
theorem announcesLength_iff {c : Constructor} {calls : List Setter}
    (hheaders : (construct c).headers.find? contentLength = none)
    (hcalls : ∀ call ∈ calls, call.headerName ≠ some contentLength) :
    (build c calls).AnnouncesLength ↔
      (construct c).body = [] ∨ ∃ value, .setBody value ∈ calls := by
  rcases build_cases hheaders hcalls with ⟨hset, hagrees⟩ | ⟨hset, hbody, hnone⟩
  · exact iff_of_true hagrees (.inr hset)
  · constructor
    · intro hagrees
      have hheader := hagrees.header
      rw [hnone, hbody] at hheader
      by_contra hne
      rw [if_neg fun hnil => hne (.inl hnil)] at hheader
      cases hheader
    · intro h
      have hnil := h.resolve_right hset
      apply announcesLength_of_header
      rw [hnone, hbody, if_pos hnil]

end HttpRequest

/-! ## Responses -/

namespace HttpResponse

/-- The response announces its own body size. -/
def AnnouncesLength (r : HttpResponse) : Prop := LengthAgrees r.headers r.body r.toString

theorem announcesLength_of_header {r : HttpResponse}
    (h : r.headers.find? contentLength
      = if r.body = [] then none else some (decimal r.body.length)) : r.AnnouncesLength := by
  refine .of_header ⟨r.statusLine ++ crlf, crlf ++ r.body, ?_⟩ h
  simp [toString]

theorem announcesLength_build {calls : List Setter}
    (hcalls : ∀ call ∈ calls, call.headerName ≠ some contentLength) :
    (build calls).AnnouncesLength := by
  induction calls using List.reverseRecOn with
  | nil => exact announcesLength_of_header rfl
  | append_singleton calls last ih =>
      obtain ⟨hothers, hlast⟩ := List.forall_mem_append.mp hcalls
      have hname := hlast last List.mem_cons_self
      have hagrees := ih hothers
      rw [build_concat]
      cases last with
      | setBody value => exact announcesLength_of_header (find?_setBody _ value)
      | setHeader name value =>
          exact announcesLength_of_header
            ((find?_setHeader hname (build calls).headers value).trans hagrees.header)
      | setStatus _ => exact announcesLength_of_header hagrees.header
      | setVersion _ => exact announcesLength_of_header hagrees.header

end HttpResponse

/-- **Content-Length agrees with the body** in every response, and in a
request exactly when the constructor left its body empty or `set_body` was
called. -/
theorem length_agrees_iff {c : HttpRequest.Constructor} {calls : List HttpRequest.Setter}
    {calls' : List HttpResponse.Setter}
    (hheaders : (HttpRequest.construct c).headers.find? contentLength = none)
    (hcalls : ∀ call ∈ calls, call.headerName ≠ some contentLength)
    (hcalls' : ∀ call ∈ calls', call.headerName ≠ some contentLength) :
    ((HttpRequest.build c calls).AnnouncesLength ↔
        (HttpRequest.construct c).body = [] ∨ ∃ value, .setBody value ∈ calls) ∧
      (HttpResponse.build calls').AnnouncesLength :=
  ⟨HttpRequest.announcesLength_iff hheaders hcalls, HttpResponse.announcesLength_build hcalls'⟩

/-- A body from the constructor that is replaced. -/
theorem length_agrees_iff_replaced :
    let c : HttpRequest.Constructor := .fields .post (bytes "/") .http11 empty (bytes "old")
    let calls : List HttpRequest.Setter :=
      [.setHeader (bytes "a") (bytes "b"), .setBody (bytes "new body")]
    ((HttpRequest.build c calls).AnnouncesLength ↔
        (HttpRequest.construct c).body = [] ∨ ∃ value, .setBody value ∈ calls) ∧
      (HttpResponse.build [.setBody (bytes "x"), .setBody []]).AnnouncesLength :=
  length_agrees_iff rfl (by decide) (by decide)

/-- A request constructed with a body does not announce it. -/
theorem constructed_body_unannounced :
    ¬ ∀ (c : HttpRequest.Constructor) (calls : List HttpRequest.Setter),
      (HttpRequest.construct c).headers.find? contentLength = none →
      (∀ call ∈ calls, call.headerName ≠ some contentLength) →
      (HttpRequest.build c calls).AnnouncesLength := by
  intro h
  have hagrees := h (.fields .post (bytes "/") .http11 empty (bytes "x")) [] rfl (by simp)
  have hheader := hagrees.header
  exact absurd hheader (by decide)

end Pine
