import Pine.Http.ContentLength
import Pine.Base.Cells

/-!
# Http — Building

What a message that was built by setter calls says, told by the calls
alone: every field holds what was last written into it, where `set_body`
writes two of them, the body and the header of its length. With fields
the format can represent, that is what the text of the message is read as
(`built_reads_back_iff`), and two messages have the same text only if
their calls leave the same (`built_sameText_iff`).
-/

namespace Pine

open SortedMap

/-! ## Headers -/

/-- What `set_header` with the name `set` writes under `name`. -/
def headerWritten (set value name : Bytes) : Option (Option Bytes) :=
  if set = name then some (some value) else none

/-- What `set_body` writes under `name`: the length, or that there is no
entry. -/
def lengthWritten (value name : Bytes) : Option (Option Bytes) :=
  if contentLength = name then
    some (if value = [] then none else some (decimal value.length))
  else
    none

theorem find?_headerWritten (headers : HeaderMap) (set value name : Bytes) :
    (headers.insertOrAssign set value).find? name
      = (headerWritten set value name).getD (headers.find? name) := by
  rw [find?_insertOrAssign, headerWritten]
  by_cases h : set = name <;> simp [h]

theorem find?_lengthWritten (headers : HeaderMap) (value name : Bytes) :
    (if value = [] then headers.erase contentLength
      else headers.insertOrAssign contentLength (decimal value.length)).find? name
      = (lengthWritten value name).getD (headers.find? name) := by
  rw [lengthWritten]
  by_cases h : contentLength = name <;> by_cases hvalue : value = [] <;> simp [h, hvalue]

/-- A decimal is digits. -/
theorem decimal_digit {n : Nat} {b : UInt8} (h : b ∈ decimal n) : 48 ≤ b := by
  obtain ⟨c, hc, rfl⟩ := List.mem_map.mp h
  have hdigit := Nat.isDigit_of_mem_toDigits (by decide) (by decide) hc
  simp only [Char.isDigit, Bool.and_eq_true, decide_eq_true_eq] at hdigit
  obtain ⟨hlow, hhigh⟩ := hdigit
  have hlow' : 48 ≤ c.toNat := UInt32.le_iff_toNat_le.mp hlow
  have hhigh' : c.toNat ≤ 57 := UInt32.le_iff_toNat_le.mp hhigh
  rw [UInt8.le_iff_toNat_le, UInt8.toNat_ofNat']
  show 48 ≤ c.toNat % 256
  omega

theorem decimal_free (n : Nat) : ¬ crlf <:+: decimal n := by
  intro h
  have hcr := decimal_digit (h.subset (List.mem_cons_self (a := cr) (l := [lf])))
  exact absurd hcr (by decide)

/-- A field the format can represent. -/
def FieldWellFormed (name value : Bytes) : Prop := FieldsWellFormed [(name, value)]

instance (name value : Bytes) : Decidable (FieldWellFormed name value) :=
  inferInstanceAs (Decidable (FieldsWellFormed [(name, value)]))

theorem fieldWellFormed_length (n : Nat) : FieldWellFormed contentLength (decimal n) := by
  intro e he
  rw [List.mem_singleton] at he
  subst he
  have hname : colon ∉ contentLength ∧ ¬ crlf <:+: contentLength := by decide
  exact ⟨hname.1, hname.2, decimal_free n⟩

theorem fieldsWellFormed_iff_find? {m : HeaderMap} :
    FieldsWellFormed m.entries ↔
      ∀ name value, m.find? name = some value → FieldWellFormed name value := by
  constructor
  · intro h name value hfind e he
    rw [List.mem_singleton] at he
    subst he
    exact h _ (mem_entries_iff.mpr hfind)
  · intro h e he
    obtain ⟨name, value⟩ := e
    exact h name value (mem_entries_iff.mp he) _ List.mem_cons_self

/-- What can be found under a name, if there is a value, can be
represented. -/
def Found (name : Bytes) (held : Option Bytes) : Prop :=
  ∀ value, held = some value → FieldWellFormed name value

theorem found_headerWritten {set value name : Bytes} {held : Option Bytes}
    (h : FieldWellFormed set value) (hwritten : headerWritten set value name = some held) :
    Found name held := by
  rw [headerWritten] at hwritten
  split at hwritten
  · rename_i hname
    cases hwritten
    intro value' heq
    cases heq
    rwa [← hname]
  · cases hwritten

theorem found_lengthWritten {value name : Bytes} {held : Option Bytes}
    (hwritten : lengthWritten value name = some held) : Found name held := by
  rw [lengthWritten] at hwritten
  split at hwritten
  · rename_i hname
    cases hwritten
    intro value' heq
    split at heq
    · cases heq
    · cases heq
      rw [← hname]
      exact fieldWellFormed_length _
  · cases hwritten

/-! ## Requests -/

namespace HttpRequest

/-- What a request holds, header by header. -/
inductive Field where
  | method
  | uri
  | version
  | header (name : Bytes)
  | body
  deriving DecidableEq

/-- What a field can hold. A header may be missing. -/
def Field.Value : Field → Type
  | .method => HttpMethod
  | .uri => Bytes
  | .version => HttpVersion
  | .header _ => Option Bytes
  | .body => Bytes

def read (r : HttpRequest) : (f : Field) → f.Value
  | .method => r.method
  | .uri => r.uri
  | .version => r.version
  | .header name => r.headers.find? name
  | .body => r.body

/-- What a call writes into a field. -/
def Setter.written : Setter → (f : Field) → Option f.Value
  | .setMethod value, .method => some value
  | .setUri value, .uri => some value
  | .setVersion value, .version => some value
  | .setHeader set value, .header name => headerWritten set value name
  | .setBody value, .header name => lengthWritten value name
  | .setBody value, .body => some value
  | _, _ => none

/-- The setters write fields. -/
def store : Cells.Store HttpRequest Setter Field Field.Value where
  read := read
  step := call
  written := Setter.written
  read_step r c f := by
    cases c with
    | setHeader set value =>
        cases f with
        | header name => exact find?_headerWritten r.headers set value name
        | _ => rfl
    | setBody value =>
        cases f with
        | header name => exact find?_lengthWritten r.headers value name
        | _ => rfl
    | _ => cases f <;> rfl

/-- What the constructor and the calls leave in a field. -/
def content (c : Constructor) (calls : List Setter) (f : Field) : f.Value :=
  store.left calls f (read (construct c) f)

/-- The uri the calls leave. -/
def uriLeft (c : Constructor) (calls : List Setter) : Bytes := content c calls .uri

/-- The strings of the call can be represented. -/
def Setter.Representable : Setter → Prop
  | .setHeader name value => FieldWellFormed name value
  | _ => True

instance : DecidablePred Setter.Representable
  | .setHeader name value => inferInstanceAs (Decidable (FieldWellFormed name value))
  | .setMethod _ | .setUri _ | .setVersion _ | .setBody _ => isTrue trivial

theorem ext_read {r r' : HttpRequest} (h : ∀ f, r.read f = r'.read f) : r = r' := by
  obtain ⟨method, uri, version, headers, body⟩ := r
  obtain ⟨method', uri', version', headers', body'⟩ := r'
  have hmethod : method = method' := h .method
  have huri : uri = uri' := h .uri
  have hversion : version = version' := h .version
  have hheaders : headers = headers' := ext_find? fun name => h (.header name)
  have hbody : body = body' := h .body
  subst hmethod huri hversion hheaders hbody
  rfl

/-- **The calls tell the request.** -/
theorem read_build (c : Constructor) (calls : List Setter) (f : Field) :
    (build c calls).read f = content c calls f := store.read_run (construct c) calls f

theorem Setter.Representable.found {c : Setter} (h : c.Representable) {name : Bytes}
    {held : Option Bytes} (hwritten : c.written (.header name) = some held) : Found name held := by
  cases c with
  | setHeader set value => exact found_headerWritten h hwritten
  | setBody value => exact found_lengthWritten hwritten
  | _ => cases hwritten

/-- Every string handed to the constructor or a setter can be
represented. -/
structure Representable (c : Constructor) (calls : List Setter) : Prop where
  headers : FieldsWellFormed (construct c).headers.entries
  calls : ∀ call ∈ calls, call.Representable

theorem fieldsWellFormed_build {c : Constructor} {calls : List Setter}
    (h : Representable c calls) : FieldsWellFormed (build c calls).headers.entries := by
  rw [fieldsWellFormed_iff_find?]
  intro name
  have hleft : Found name (content c calls (.header name)) := by
    apply store.left_of_written (i := .header name) (P := Found name)
    · exact fieldsWellFormed_iff_find?.mp h.headers name
    · intro last hmem held hwritten
      exact (h.calls last hmem).found hwritten
  rwa [← read_build] at hleft

/-- A uri that can stand in a request line. -/
def UriFits (uri : Bytes) : Prop := uri.head? = some Pine.slash ∧ Pine.space ∉ uri

instance (uri : Bytes) : Decidable (UriFits uri) :=
  inferInstanceAs (Decidable (uri.head? = some Pine.slash ∧ Pine.space ∉ uri))

theorem wellFormed_build {c : Constructor} {calls : List Setter} (h : Representable c calls)
    (huri : UriFits (uriLeft c calls)) : (build c calls).WellFormed := by
  have hread : (build c calls).uri = uriLeft c calls := read_build c calls .uri
  rw [← hread] at huri
  exact ⟨huri.1, huri.2, fieldsWellFormed_build h⟩

/-- Representable requests with one text are one request. -/
theorem toString_injective {r r' : HttpRequest} (h : r.WellFormed) (h' : r'.WellFormed)
    (htext : r.toString = r'.toString) : r = r' := by
  have hparse := parse_toString_append h []
  rw [htext, parse_toString_append h' [], List.append_nil, List.append_nil] at hparse
  injection hparse with heq
  exact heq.symm

theorem build_eq_iff {c c' : Constructor} {calls calls' : List Setter} :
    build c calls = build c' calls' ↔ ∀ f, content c calls f = content c' calls' f :=
  store.run_eq_iff (fun _ _ => ext_read)

end HttpRequest

/-! ## Responses -/

namespace HttpResponse

/-- What a response holds, header by header. -/
inductive Field where
  | body
  | header (name : Bytes)
  | status
  | version
  deriving DecidableEq

/-- What a field can hold. A header may be missing. -/
def Field.Value : Field → Type
  | .body => Bytes
  | .header _ => Option Bytes
  | .status => HttpStatus
  | .version => HttpVersion

def read (r : HttpResponse) : (f : Field) → f.Value
  | .body => r.body
  | .header name => r.headers.find? name
  | .status => r.status
  | .version => r.version

/-- What a call writes into a field. -/
def Setter.written : Setter → (f : Field) → Option f.Value
  | .setStatus value, .status => some value
  | .setVersion value, .version => some value
  | .setHeader set value, .header name => headerWritten set value name
  | .setBody value, .header name => lengthWritten value name
  | .setBody value, .body => some value
  | _, _ => none

/-- The setters write fields. -/
def store : Cells.Store HttpResponse Setter Field Field.Value where
  read := read
  step := call
  written := Setter.written
  read_step r c f := by
    cases c with
    | setHeader set value =>
        cases f with
        | header name => exact find?_headerWritten r.headers set value name
        | _ => rfl
    | setBody value =>
        cases f with
        | header name => exact find?_lengthWritten r.headers value name
        | _ => rfl
    | _ => cases f <;> rfl

/-- What the calls leave in a field. -/
def content (calls : List Setter) (f : Field) : f.Value := store.left calls f (read {} f)

/-- The strings of the call can be represented. -/
def Setter.Representable : Setter → Prop
  | .setHeader name value => FieldWellFormed name value
  | _ => True

instance : DecidablePred Setter.Representable
  | .setHeader name value => inferInstanceAs (Decidable (FieldWellFormed name value))
  | .setStatus _ | .setVersion _ | .setBody _ => isTrue trivial

theorem Setter.Representable.found {c : Setter} (h : c.Representable) {name : Bytes}
    {held : Option Bytes} (hwritten : c.written (.header name) = some held) : Found name held := by
  cases c with
  | setHeader set value => exact found_headerWritten h hwritten
  | setBody value => exact found_lengthWritten hwritten
  | _ => cases hwritten

theorem ext_read {r r' : HttpResponse} (h : ∀ f, r.read f = r'.read f) : r = r' := by
  obtain ⟨body, headers, status, version⟩ := r
  obtain ⟨body', headers', status', version'⟩ := r'
  have hbody : body = body' := h .body
  have hheaders : headers = headers' := ext_find? fun name => h (.header name)
  have hstatus : status = status' := h .status
  have hversion : version = version' := h .version
  subst hbody hheaders hstatus hversion
  rfl

/-- **The calls tell the response.** -/
theorem read_build (calls : List Setter) (f : Field) : (build calls).read f = content calls f :=
  store.read_run {} calls f

theorem wellFormed_build {calls : List Setter} (h : ∀ call ∈ calls, call.Representable) :
    (build calls).WellFormed := by
  rw [WellFormed, fieldsWellFormed_iff_find?]
  intro name
  have hleft : Found name (content calls (.header name)) := by
    apply store.left_of_written (i := .header name) (P := Found name)
    · intro value heq
      cases heq
    · intro last hmem held hwritten
      exact (h last hmem).found hwritten
  rwa [← read_build] at hleft

/-- Representable responses with one text are one response. -/
theorem toString_injective {r r' : HttpResponse} (h : r.WellFormed) (h' : r'.WellFormed)
    (htext : r.toString = r'.toString) : r = r' := by
  have hparse := parse_toString_append h []
  rw [htext, parse_toString_append h' [], List.append_nil, List.append_nil] at hparse
  injection hparse with heq
  exact heq.symm

theorem build_eq_iff {calls calls' : List Setter} :
    build calls = build calls' ↔ ∀ f, content calls f = content calls' f :=
  store.run_eq_iff (fun _ _ => ext_read)

end HttpResponse

/-! ## Reading a built message back -/

/-- **Built messages read back as what was written into them**, a response
always, and a request exactly when the uri its calls leave can stand in a
request line. -/
theorem built_reads_back_iff {c : HttpRequest.Constructor} {calls : List HttpRequest.Setter}
    {calls' : List HttpResponse.Setter} (h : HttpRequest.Representable c calls)
    (h' : ∀ call ∈ calls', call.Representable) :
    ((∃ r, HttpRequest.parse (HttpRequest.build c calls).toString = .value r ∧
        ∀ f, r.read f = HttpRequest.content c calls f) ↔
      HttpRequest.UriFits (HttpRequest.uriLeft c calls)) ∧
      ∃ r, HttpResponse.parse (HttpResponse.build calls').toString = .value r ∧
        ∀ f, r.read f = HttpResponse.content calls' f := by
  refine ⟨⟨?_, ?_⟩, ?_⟩
  · intro hreads
    obtain ⟨r, hparse, hread⟩ := hreads
    obtain ⟨_, _, _, _, hslash, hspace, _⟩ := HttpRequest.parse_eq_value_iff.mp hparse
    have huri : r.uri = HttpRequest.uriLeft c calls := hread .uri
    rw [← huri]
    exact ⟨hslash, hspace⟩
  · intro huri
    have hparse := HttpRequest.parse_toString_append (HttpRequest.wellFormed_build h huri) []
    rw [List.append_nil, List.append_nil] at hparse
    exact ⟨_, hparse, HttpRequest.read_build c calls⟩
  · have hparse := HttpResponse.parse_toString_append (HttpResponse.wellFormed_build h') []
    rw [List.append_nil, List.append_nil] at hparse
    exact ⟨_, hparse, HttpResponse.read_build calls'⟩

/-- A header that is overwritten, one that `set_body` takes away again,
and a uri that is set last. -/
theorem built_reads_back_iff_overwritten :
    let calls : List HttpRequest.Setter :=
      [.setBody (bytes "old"), .setHeader (bytes "a") (bytes "b"), .setBody [],
        .setHeader (bytes "a") (bytes "c: d"), .setUri (bytes "/x")]
    let calls' : List HttpResponse.Setter :=
      [.setHeader (bytes "Content-Length") (bytes "7"), .setBody (bytes "\r\n")]
    ((∃ r, HttpRequest.parse (HttpRequest.build .default calls).toString = .value r ∧
        ∀ f, r.read f = HttpRequest.content .default calls f) ↔
      HttpRequest.UriFits (HttpRequest.uriLeft .default calls)) ∧
      ∃ r, HttpResponse.parse (HttpResponse.build calls').toString = .value r ∧
        ∀ f, r.read f = HttpResponse.content calls' f :=
  built_reads_back_iff ⟨List.forall_mem_nil _, by decide⟩ (by decide)

/-- **The text tells the calls apart**: two built messages are sent as the
same bytes exactly when their calls leave the same in every field. -/
theorem built_sameText_iff {c₁ c₂ : HttpRequest.Constructor}
    {calls₁ calls₂ : List HttpRequest.Setter} {calls₁' calls₂' : List HttpResponse.Setter}
    (h₁ : HttpRequest.Representable c₁ calls₁) (h₂ : HttpRequest.Representable c₂ calls₂)
    (huri₁ : HttpRequest.UriFits (HttpRequest.uriLeft c₁ calls₁))
    (huri₂ : HttpRequest.UriFits (HttpRequest.uriLeft c₂ calls₂))
    (h₁' : ∀ call ∈ calls₁', call.Representable) (h₂' : ∀ call ∈ calls₂', call.Representable) :
    ((HttpRequest.build c₁ calls₁).toString = (HttpRequest.build c₂ calls₂).toString ↔
        ∀ f, HttpRequest.content c₁ calls₁ f = HttpRequest.content c₂ calls₂ f) ∧
      ((HttpResponse.build calls₁').toString = (HttpResponse.build calls₂').toString ↔
        ∀ f, HttpResponse.content calls₁' f = HttpResponse.content calls₂' f) := by
  rw [← HttpRequest.build_eq_iff, ← HttpResponse.build_eq_iff]
  refine ⟨⟨?_, congrArg _⟩, ⟨?_, congrArg _⟩⟩
  · intro htext
    exact HttpRequest.toString_injective (HttpRequest.wellFormed_build h₁ huri₁)
      (HttpRequest.wellFormed_build h₂ huri₂) htext
  · intro htext
    exact HttpResponse.toString_injective (HttpResponse.wellFormed_build h₁')
      (HttpResponse.wellFormed_build h₂') htext

/-- Calls in another order, with writes that are overwritten. -/
theorem built_sameText_iff_reordered :
    let calls₁ : List HttpRequest.Setter :=
      [.setUri (bytes "/x"), .setHeader (bytes "a") (bytes "b"), .setBody (bytes "hi")]
    let calls₂ : List HttpRequest.Setter :=
      [.setBody (bytes "x"), .setHeader (bytes "a") (bytes "c"), .setBody (bytes "hi"),
        .setHeader (bytes "a") (bytes "b"), .setUri (bytes "/x")]
    let calls₁' : List HttpResponse.Setter := [.setStatus .notFound]
    let calls₂' : List HttpResponse.Setter :=
      [.setStatus .ok, .setHeader (bytes "Content-Length") (bytes "1"), .setBody [],
        .setStatus .notFound]
    ((HttpRequest.build .default calls₁).toString = (HttpRequest.build .default calls₂).toString ↔
        ∀ f, HttpRequest.content .default calls₁ f = HttpRequest.content .default calls₂ f) ∧
      ((HttpResponse.build calls₁').toString = (HttpResponse.build calls₂').toString ↔
        ∀ f, HttpResponse.content calls₁' f = HttpResponse.content calls₂' f) :=
  built_sameText_iff ⟨List.forall_mem_nil _, by decide⟩ ⟨List.forall_mem_nil _, by decide⟩
    (by decide) (by decide) (by decide) (by decide)

end Pine
