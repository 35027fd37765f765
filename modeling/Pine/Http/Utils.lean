import Pine.Http.Text

/-!
# Http — Utils

The enumerations and string tables of `http.h` and the `http_utils`
helpers of `http.cpp`, each with the offset it advances. A helper reads
the whole message through its offset; what it computes only depends on
the text from there on, and the facts at the end of this file say so for
the helpers that do not loop.
-/

namespace Pine

open Search

/-! ## Tables -/

/-- `pine::http_method`. -/
inductive HttpMethod where
  | get
  | head
  | post
  deriving DecidableEq, Repr

/-- `pine::http_status`. -/
inductive HttpStatus where
  | ok
  | badRequest
  | notFound
  | internalServerError
  deriving DecidableEq, Repr

/-- `pine::http_version`. -/
inductive HttpVersion where
  | http11
  deriving DecidableEq, Repr

/-- `http_method_strings`, in map order. -/
def httpMethodStrings : List (HttpMethod × Bytes) :=
  [(.get, bytes "GET"), (.head, bytes "HEAD"), (.post, bytes "POST")]

/-- `http_status_strings`, in map order. -/
def httpStatusStrings : List (HttpStatus × Bytes) :=
  [(.ok, bytes "OK"),
   (.badRequest, bytes "Bad Request"),
   (.notFound, bytes "Not Found"),
   (.internalServerError, bytes "Internal Server Error")]

/-- `http_version_strings`, in map order. -/
def httpVersionStrings : List (HttpVersion × Bytes) :=
  [(.http11, bytes "HTTP/1.1")]

/-- `http_method_strings.at(method)`. -/
def HttpMethod.string : HttpMethod → Bytes
  | .get => bytes "GET"
  | .head => bytes "HEAD"
  | .post => bytes "POST"

/-- `http_status_strings.at(status)`. -/
def HttpStatus.string : HttpStatus → Bytes
  | .ok => bytes "OK"
  | .badRequest => bytes "Bad Request"
  | .notFound => bytes "Not Found"
  | .internalServerError => bytes "Internal Server Error"

/-- `http_version_strings.at(version)`. -/
def HttpVersion.string : HttpVersion → Bytes
  | .http11 => bytes "HTTP/1.1"

/-- `static_cast<int>(status)`. -/
def HttpStatus.code : HttpStatus → Nat
  | .ok => 200
  | .badRequest => 400
  | .notFound => 404
  | .internalServerError => 500

/-- `std::to_string` of a size or a status code. -/
def decimal (n : Nat) : Bytes := (Nat.toDigits 10 n).map (fun c => UInt8.ofNat c.toNat)

/-- `std::format("{} {}", code, string)`: the status as it stands in a
status line. -/
def expectedStatus (code : Nat) (string : Bytes) : Bytes := decimal code ++ space :: string

/-- The texts `try_get_status` compares with, in map order. -/
def expectedStatusStrings : List (HttpStatus × Bytes) :=
  httpStatusStrings.map (fun e => (e.1, expectedStatus e.1.code e.2))

theorem method_mem (m : HttpMethod) : (m, m.string) ∈ httpMethodStrings := by
  cases m <;> decide

/-- There is one version to speak of. -/
theorem version_string (v : HttpVersion) : v.string = bytes "HTTP/1.1" := by
  cases v
  rfl

theorem version_mem (v : HttpVersion) : (v, v.string) ∈ httpVersionStrings := by
  cases v; decide

theorem status_mem (s : HttpStatus) :
    (s, expectedStatus s.code s.string) ∈ expectedStatusStrings := by
  cases s <;> decide

/-- A table has one text for each key. -/
theorem text_unique {α : Type} [DecidableEq α] {table : List (α × Bytes)}
    (hkeys : table.Pairwise (fun a b => a.1 ≠ b.1)) {a : α} {text text' : Bytes}
    (h : (a, text) ∈ table) (h' : (a, text') ∈ table) : text = text' := by
  have hlookup := SortedMap.lookupIn_of_mem hkeys h
  rw [SortedMap.lookupIn_of_mem hkeys h'] at hlookup
  exact (Option.some.inj hlookup).symm

theorem string_of_method_mem {m : HttpMethod} {text : Bytes}
    (h : (m, text) ∈ httpMethodStrings) : text = m.string :=
  text_unique (by decide) h (method_mem m)

theorem string_of_version_mem {v : HttpVersion} {text : Bytes}
    (h : (v, text) ∈ httpVersionStrings) : text = v.string :=
  text_unique (by decide) h (version_mem v)

theorem string_of_status_mem {s : HttpStatus} {text : Bytes}
    (h : (s, text) ∈ expectedStatusStrings) : text = expectedStatus s.code s.string :=
  text_unique (by decide) h (status_mem s)

/-! ## The helpers -/

/-- `for (auto& [a, text] : table) if (request.substr(offset).starts_with(text))`:
the loop of `try_get_method`, `try_get_status` and `try_get_version`. -/
def tryGetPrefix {α : Type} (error : Error) (request : Bytes) (offset : Nat) :
    List (α × Bytes) → Scan α
  | [] => .unexpected (makeErrorCode error) offset
  | (a, text) :: rest =>
      match substr request offset none with
      | none => .outOfRange
      | some tail =>
          if text <+: tail then .value a (offset + text.length)
          else tryGetPrefix error request offset rest

/-- `http_utils::try_get_method`. -/
def tryGetMethod (request : Bytes) (offset : Nat) : Scan HttpMethod :=
  tryGetPrefix .parseErrorMethod request offset httpMethodStrings

/-- `http_utils::try_get_status`. -/
def tryGetStatus (request : Bytes) (offset : Nat) : Scan HttpStatus :=
  tryGetPrefix .parseErrorStatus request offset expectedStatusStrings

/-- `http_utils::try_get_version`. -/
def tryGetVersion (request : Bytes) (offset : Nat) : Scan HttpVersion :=
  tryGetPrefix .parseErrorVersion request offset httpVersionStrings

/-- `http_utils::try_get_uri`. -/
def tryGetUri (request : Bytes) (offset : Nat) : Scan Bytes :=
  match byteAt request offset with
  | none => .outOfRange
  | some b =>
      if b ≠ slash then .unexpected (makeErrorCode .parseErrorUri) offset
      else
        let start := offset
        match find request [space] start with
        | none => .unexpected (makeErrorCode .parseErrorUri) offset
        | some last =>
            match substr request start (sizeDiff last start) with
            | none => .outOfRange
            | some uri => .value uri last

/-- `http_utils::try_get_body`. -/
def tryGetBody (request : Bytes) (offset : Nat) : Scan Bytes :=
  if request.length ≤ offset then .unexpected (makeErrorCode .parseErrorBody) offset
  else
    match substr request offset none with
    | none => .outOfRange
    | some body => .value body request.length

/-- `http_utils::try_get_header`. Neither search stops at the end of the
line, and `valueStart` assumes a byte between the colon and the value. -/
def tryGetHeader (request : Bytes) (offset : Nat) : Scan (Bytes × Bytes) :=
  let start := offset
  match find request [colon] start, find request crlf start with
  | some colon, some last =>
      if last < colon then .unexpected (makeErrorCode .parseErrorHeaders) offset
      else
        let valueStart := colon + 2
        match substr request start (sizeDiff colon start),
            substr request valueStart (sizeDiff last valueStart) with
        | some name, some value => .value (name, value) (last + crlf.length)
        | _, _ => .outOfRange
  | _, _ => .unexpected (makeErrorCode .parseErrorHeaders) offset

theorem le_of_find {s pattern : Bytes} {pos i : Nat} (h : find s pattern pos = some i) :
    pos ≤ i := by
  unfold find at h
  split at h
  · cases h
  · obtain ⟨j, _, rfl⟩ := Option.map_eq_some_iff.mp h
    omega

/-- A header read moves the offset on, past the end of its line. -/
theorem offset_lt_of_tryGetHeader {request : Bytes} {offset o : Nat} {field : Bytes × Bytes}
    (h : tryGetHeader request offset = .value field o) : offset < o := by
  unfold tryGetHeader at h
  dsimp only at h
  split at h
  · next c last hc hlast =>
    have hle := le_of_find hlast
    split at h
    · cases h
    · split at h
      · cases h
        simp only [crlf_length]
        omega
      · cases h
  · cases h

/-- `std::map<std::string, std::string>`. -/
abbrev HeaderMap := SortedMap Bytes Bytes

/-- Bytes compare as unsigned values, strings lexicographically. -/
instance uInt8StrictTotalOrder : IsStrictTotalOrder UInt8 (· < ·) where
  irrefl _ h := absurd h (UInt8.lt_irrefl _)
  trans _ _ _ h₁ h₂ := UInt8.lt_trans h₁ h₂
  trichotomous _ _ h₁ h₂ := UInt8.le_antisymm (UInt8.not_lt.mp h₂) (UInt8.not_lt.mp h₁)

instance bytesStrictTotalOrder : IsStrictTotalOrder Bytes (· < ·) :=
  have : IsStrictTotalOrder (List UInt8) (List.Lex (· < ·)) :=
    { isStrictWeakOrder_of_isOrderConnected with }
  this

/-- The loop of `http_utils::try_get_headers`. -/
def tryGetHeadersLoop (request : Bytes) (offset : Nat) (result : HeaderMap) :
    Scan HeaderMap :=
  if _hline : offset < request.length then
    match substr request offset none with
    | none => .outOfRange
    | some line =>
        if crlf <+: line then .value result (offset + crlf.length)
        else
          match _hheader : tryGetHeader request offset with
          | .unexpected e o => .unexpected e o
          | .outOfRange => .outOfRange
          | .value (name, value) o =>
              tryGetHeadersLoop request o (result.insertOrAssign name value)
  else .value result offset
termination_by request.length - offset
decreasing_by
  have := offset_lt_of_tryGetHeader _hheader
  omega

/-- `http_utils::try_get_headers`. -/
def tryGetHeaders (request : Bytes) (offset : Nat) : Scan HeaderMap :=
  tryGetHeadersLoop request offset SortedMap.empty

/-! ## What the helpers without a loop over the text compute -/

/-- No text of the table is a prefix of another one. -/
def PrefixFree {α : Type} (table : List (α × Bytes)) : Prop :=
  table.Pairwise (fun a b => ¬ a.2 <+: b.2 ∧ ¬ b.2 <+: a.2)

instance {α : Type} (table : List (α × Bytes)) : Decidable (PrefixFree table) :=
  inferInstanceAs (Decidable (table.Pairwise _))

theorem prefixFree_method : PrefixFree httpMethodStrings := by decide

theorem prefixFree_status : PrefixFree expectedStatusStrings := by decide

theorem prefixFree_version : PrefixFree httpVersionStrings := by decide

section tryGetPrefix
variable {α : Type} {error : Error} {request : Bytes} {offset : Nat}
  {table : List (α × Bytes)}

/-- Past the end of the message the first `substr` already throws. -/
theorem tryGetPrefix_pastEnd (hlt : request.length < offset) (hne : table ≠ []) :
    tryGetPrefix error request offset table = .outOfRange := by
  obtain ⟨e, rest, rfl⟩ := List.exists_cons_of_ne_nil hne
  simp only [tryGetPrefix, substr_of_lt hlt]

theorem tryGetPrefix_unexpected (hle : offset ≤ request.length)
    (h : ∀ e ∈ table, ¬ e.2 <+: request.drop offset) :
    tryGetPrefix error request offset table = .unexpected (makeErrorCode error) offset := by
  induction table with
  | nil => rfl
  | cons e rest ih =>
      have he := h e List.mem_cons_self
      simp only [tryGetPrefix, substr_toEnd hle, if_neg he]
      exact ih (fun e' he' => h e' (List.mem_cons_of_mem _ he'))

/-- Over a prefix-free table the text found is the only one that fits. -/
theorem tryGetPrefix_value (hfree : PrefixFree table) (hle : offset ≤ request.length)
    {a : α} {text : Bytes} (hmem : (a, text) ∈ table) (hpre : text <+: request.drop offset) :
    tryGetPrefix error request offset table = .value a (offset + text.length) := by
  induction table with
  | nil => cases hmem
  | cons e rest ih =>
      simp only [tryGetPrefix, substr_toEnd hle]
      have hfree' := List.pairwise_cons.mp hfree
      rcases List.mem_cons.mp hmem with heq | hmem
      · cases heq
        rw [if_pos hpre]
      · have hne : ¬ e.2 <+: request.drop offset := by
          intro he
          rcases Nat.le_total e.2.length text.length with hlen | hlen
          · exact (hfree'.1 _ hmem).1 (List.prefix_of_prefix_length_le he hpre hlen)
          · exact (hfree'.1 _ hmem).2 (List.prefix_of_prefix_length_le hpre he hlen)
        rw [if_neg hne]
        exact ih hfree'.2 hmem

theorem tryGetPrefix_eq_value {a : α} {o : Nat}
    (h : tryGetPrefix error request offset table = .value a o) :
    ∃ text, (a, text) ∈ table ∧ text <+: request.drop offset ∧
      offset ≤ request.length ∧ o = offset + text.length := by
  induction table with
  | nil => cases h
  | cons e rest ih =>
      by_cases hlt : request.length < offset
      · rw [tryGetPrefix_pastEnd hlt (List.cons_ne_nil e rest)] at h
        cases h
      · have hle : offset ≤ request.length := Nat.not_lt.mp hlt
        simp only [tryGetPrefix, substr_toEnd hle] at h
        split at h
        · next hpre =>
          cases h
          exact ⟨e.2, List.mem_cons_self, hpre, hle, rfl⟩
        · obtain ⟨text, hmem, hpre, _, ho⟩ := ih h
          exact ⟨text, List.mem_cons_of_mem _ hmem, hpre, hle, ho⟩

/-- The loop has one error, its own. -/
theorem tryGetPrefix_eq_unexpected {e : ErrorCode} {o : Nat}
    (h : tryGetPrefix error request offset table = .unexpected e o) : e = makeErrorCode error := by
  induction table with
  | nil =>
      cases h
      rfl
  | cons entry rest ih =>
      simp only [tryGetPrefix] at h
      split at h
      · cases h
      · split at h
        · cases h
        · exact ih h

/-- The only throw is that of a `substr` past the end. -/
theorem tryGetPrefix_eq_outOfRange_iff (hne : table ≠ []) :
    tryGetPrefix error request offset table = .outOfRange ↔ request.length < offset := by
  constructor
  · intro h
    apply Nat.lt_of_not_le
    intro hle
    induction table with
    | nil => exact hne rfl
    | cons e rest ih =>
        simp only [tryGetPrefix, substr_toEnd hle] at h
        split at h
        · cases h
        · by_cases hrest : rest = []
          · subst hrest
            cases h
          · exact ih hrest h
  · intro hlt
    exact tryGetPrefix_pastEnd hlt hne

end tryGetPrefix

theorem drop_of_append {s text rest : Bytes} {offset : Nat}
    (h : s.drop offset = text ++ rest) : s.drop (offset + text.length) = rest := by
  rw [← List.drop_drop, h, List.drop_left]

theorem le_length_of_drop_ne_nil {s : Bytes} {offset : Nat} (h : s.drop offset ≠ []) :
    offset ≤ s.length := by
  have hpos := List.length_pos_iff.mpr h
  rw [List.length_drop] at hpos
  omega

section tryGetUri
variable {request : Bytes} {offset : Nat}

theorem tryGetUri_pastEnd (h : request.length ≤ offset) :
    tryGetUri request offset = .outOfRange := by
  simp [tryGetUri, byteAt, List.getElem?_eq_none h]

/-- A uri is read up to the first space of the message, and that space is
left for the caller. -/
theorem tryGetUri_value {uri rest : Bytes} (h : request.drop offset = uri ++ space :: rest)
    (hslash : uri.head? = some slash) (hspace : space ∉ uri) :
    tryGetUri request offset = .value uri (offset + uri.length) := by
  have hne : request.drop offset ≠ [] := by rw [h]; simp
  have hle := le_length_of_drop_ne_nil hne
  have hat : byteAt request offset = some slash := by
    obtain ⟨b, uri', rfl⟩ := List.exists_cons_of_ne_nil (l := uri) (by
      intro hnil
      simp [hnil] at hslash)
    have hb : b = slash := by simpa using hslash
    rw [byteAt, ← List.head?_drop, h, hb]
    rfl
  have hfind := find_byte hle h hspace
  have hsub : substr request offset (sizeDiff (offset + uri.length) offset) = some uri := by
    rw [sizeDiff, if_pos (Nat.le_add_right _ _), substr_of_le hle, h, Nat.add_sub_cancel_left]
    simp
  simp [tryGetUri, hat, hfind, hsub]

/-- A position that `at` can read is all `try_get_uri` needs not to throw. -/
theorem tryGetUri_eq_outOfRange_iff :
    tryGetUri request offset = .outOfRange ↔ request.length ≤ offset := by
  constructor
  · intro h
    apply Nat.le_of_not_lt
    intro hlt
    have hat : byteAt request offset = some request[offset] := List.getElem?_eq_getElem hlt
    have hle := Nat.le_of_lt hlt
    simp only [tryGetUri, hat, substr_of_le hle] at h
    split at h
    · cases h
    · split at h
      · cases h
      · cases h
  · exact tryGetUri_pastEnd

theorem tryGetUri_eq_unexpected {e : ErrorCode} {o : Nat}
    (h : tryGetUri request offset = .unexpected e o) : e = makeErrorCode .parseErrorUri := by
  unfold tryGetUri at h
  split at h
  · cases h
  · split at h
    · cases h
      rfl
    · dsimp only at h
      split at h
      · cases h
        rfl
      · split at h <;> cases h

theorem tryGetUri_eq_value {uri : Bytes} {o : Nat} (h : tryGetUri request offset = .value uri o) :
    ∃ rest, request.drop offset = uri ++ space :: rest ∧ uri.head? = some slash ∧
      space ∉ uri ∧ o = offset + uri.length := by
  have hrun := h
  unfold tryGetUri at hrun
  split at hrun
  · cases hrun
  · next b hb =>
    split at hrun
    · cases hrun
    · next hb' =>
      have hslash : (request.drop offset).head? = some slash := by
        rw [List.head?_drop]
        exact hb.trans (congrArg some (not_not.mp hb'))
      have hle : offset ≤ request.length :=
        le_length_of_drop_ne_nil (by intro hnil; simp [hnil] at hslash)
      cases hi : firstIndex [space] (request.drop offset) with
      | none =>
          dsimp only at hrun
          rw [find_of_le hle, hi] at hrun
          cases hrun
      | some i =>
          obtain ⟨pre, rest, hdrop, _, hfree⟩ := firstIndex_eq_some (List.cons_ne_nil _ _) hi
          rw [List.singleton_infix_iff] at hfree
          have hhead : pre.head? = some slash := by
            rw [hdrop] at hslash
            cases pre with
            | nil => exact absurd (Option.some.inj hslash) (by decide)
            | cons c pre => exact hslash
          rw [tryGetUri_value hdrop hhead hfree] at h
          cases h
          exact ⟨rest, hdrop, hhead, hfree, rfl⟩

end tryGetUri

theorem tryGetBody_value {request : Bytes} {offset : Nat} (h : offset < request.length) :
    tryGetBody request offset = .value (request.drop offset) request.length := by
  rw [tryGetBody, if_neg (Nat.not_le.mpr h), substr_toEnd (Nat.le_of_lt h)]

end Pine
