import Pine.Http.Sections

/-!
# Http — Errors

Which parse error a text gives. Each stage of a parser fails on its own
part of the text with an error of its own: what the first stage that
cannot go on has in front of it is a `Fault`. A text is accepted, or makes
the parser throw, or has a fault (`parse_cases`); it has one at most, and
the error that comes back is that of the fault (`parse_unexpected_iff`).
So an error names the first part of the message that is wrong, and
`parse_error_body` is never returned.
-/

namespace Pine

open Search

theorem makeErrorCode_injective {e e' : Error} (h : makeErrorCode e = makeErrorCode e') :
    e = e' := by
  have hvalue : e.toInt = e'.toInt := congrArg ErrorCode.value h
  cases e <;> cases e' <;> first | rfl | exact absurd hvalue (by decide)

/-- `at` finds no slash, or the search finds no space. -/
theorem tryGetUri_unexpected {request : Bytes} {offset : Nat} (hlt : offset < request.length)
    (h : (request.drop offset).head? ≠ some slash ∨ space ∉ request.drop offset) :
    tryGetUri request offset = .unexpected (makeErrorCode .parseErrorUri) offset := by
  have hat : byteAt request offset = some request[offset] := List.getElem?_eq_getElem hlt
  have hhead : (request.drop offset).head? = some request[offset] := by
    rw [List.head?_drop]
    exact hat
  by_cases hslash : request[offset] = slash
  · have hspace : space ∉ request.drop offset := by
      refine h.resolve_left (fun hne => hne ?_)
      rw [hhead, hslash]
    have hfind : find request [space] offset = none := by
      rw [find_of_le (Nat.le_of_lt hlt), firstIndex_eq_none_iff.mpr]
      · rfl
      · rwa [List.singleton_infix_iff]
    simp only [tryGetUri, hat, hfind]
    split <;> rfl
  · simp only [tryGetUri, hat, if_pos hslash]

/-- The error of the header section. -/
theorem parseSection_unexpected_of_not_accepted {α : Type} {message : Bytes} {offset : Nat}
    {result : HeaderMap → Bytes → α} (h : ¬ BlockAccepted (message.drop offset)) :
    parseSection message offset result = .unexpected (makeErrorCode .parseErrorHeaders) :=
  parseSection_unexpected fun fields body hblock =>
    h (exists_headerBlock_iff.mp ⟨fields, body, hblock⟩)

/-- What is left to show for the errors of a parser: that a fault gives
its error, and that a text without a fault gives none. -/
theorem unexpected_iff_of_cases {α : Type} {outcome : Outcome α} {fault : Error → Prop}
    (hfault : ∀ err, fault err → outcome = .unexpected (makeErrorCode err))
    (hcases : (∃ a, outcome = .value a) ∨ outcome = .outOfRange ∨ ∃ err, fault err)
    (e : ErrorCode) : outcome = .unexpected e ↔ ∃ err, fault err ∧ e = makeErrorCode err := by
  constructor
  · intro h
    rcases hcases with ⟨a, hvalue⟩ | hthrow | ⟨err, herr⟩
    · rw [hvalue] at h
      cases h
    · rw [hthrow] at h
      cases h
    · rw [hfault err herr] at h
      cases h
      exact ⟨err, herr, rfl⟩
  · intro h
    obtain ⟨err, herr, rfl⟩ := h
    exact hfault err herr

/-- Two faults would give two errors for one text. -/
theorem fault_unique {α : Type} {outcome : Outcome α} {fault : Error → Prop}
    (hfault : ∀ err, fault err → outcome = .unexpected (makeErrorCode err)) {err err' : Error}
    (herr : fault err) (herr' : fault err') : err = err' := by
  have hsame := (hfault err herr).symm.trans (hfault err' herr')
  injection hsame with hcode
  exact makeErrorCode_injective hcode

/-! ## Requests -/

namespace HttpRequest

/-- The first stage of `parse` that cannot go on, with its error. -/
inductive Fault : Bytes → Error → Prop where
  /-- The text starts with no method. -/
  | method {s : Bytes} : (∀ m : HttpMethod, ¬ m.string <+: s) → Fault s .parseErrorMethod
  /-- A byte behind the method no slash follows, or no space comes after
  it. -/
  | uri {m : HttpMethod} {sep : UInt8} {rest : Bytes} :
      rest ≠ [] → rest.head? ≠ some slash ∨ space ∉ rest →
      Fault (m.string ++ sep :: rest) .parseErrorUri
  /-- No version follows the space behind the uri. -/
  | version {m : HttpMethod} {sep : UInt8} {uri rest : Bytes} :
      uri.head? = some slash → space ∉ uri → (∀ v : HttpVersion, ¬ v.string <+: rest) →
      Fault (m.string ++ sep :: (uri ++ space :: rest)) .parseErrorVersion
  /-- What starts two bytes behind the version is no header section. -/
  | headers {m : HttpMethod} {sep : UInt8} {uri : Bytes} {v : HttpVersion} {after : Bytes} :
      uri.head? = some slash → space ∉ uri → ¬ BlockAccepted (after.drop 2) →
      Fault (m.string ++ sep :: (uri ++ space :: (v.string ++ after))) .parseErrorHeaders

/-- The method is read from the front of the text. -/
theorem tryGetMethod_append (m : HttpMethod) (back : Bytes) :
    tryGetMethod (m.string ++ back) 0 = .value m m.string.length := by
  have hvalue : tryGetMethod (m.string ++ back) 0 = .value m (0 + m.string.length) :=
    tryGetPrefix_value prefixFree_method (Nat.zero_le _) (method_mem m) (List.prefix_append _ _)
  rwa [Nat.zero_add] at hvalue

/-- **A fault gives its error.** -/
theorem Fault.parse {s : Bytes} {err : Error} (h : Fault s err) :
    HttpRequest.parse s = .unexpected (makeErrorCode err) := by
  cases h with
  | method hnone =>
      have hmethod : tryGetMethod s 0 = .unexpected (makeErrorCode .parseErrorMethod) 0 := by
        apply tryGetPrefix_unexpected (Nat.zero_le _)
        intro e he
        rw [string_of_method_mem he]
        exact hnone e.1
      rw [HttpRequest.parse, hmethod, andThen_unexpected]
  | @uri m sep rest hne hbad =>
      have hdrop : (m.string ++ sep :: rest).drop (m.string.length + 1) = rest :=
        List.drop_length_add_append 1
      have huri : tryGetUri (m.string ++ sep :: rest) (m.string.length + 1)
          = .unexpected (makeErrorCode .parseErrorUri) (m.string.length + 1) := by
        apply tryGetUri_unexpected
        · have hpos := List.length_pos_iff.mpr hne
          simp only [List.length_append, List.length_cons]
          omega
        · rwa [hdrop]
      simp only [HttpRequest.parse, tryGetMethod_append, andThen_value, List.length_singleton, huri,
        andThen_unexpected]
  | @version m sep uri rest hslash hspace hnone =>
      have hdrop : (m.string ++ sep :: (uri ++ space :: rest)).drop (m.string.length + 1)
          = uri ++ space :: rest := List.drop_length_add_append 1
      have huri := tryGetUri_value hdrop hslash hspace
      have hdrop' : (m.string ++ sep :: (uri ++ space :: rest)).drop
          (m.string.length + 1 + uri.length + 1) = rest := by
        rw [← List.drop_drop, drop_of_append hdrop]
        rfl
      have hversion : tryGetVersion (m.string ++ sep :: (uri ++ space :: rest))
          (m.string.length + 1 + uri.length + 1)
          = .unexpected (makeErrorCode .parseErrorVersion)
            (m.string.length + 1 + uri.length + 1) := by
        apply tryGetPrefix_unexpected
        · simp only [List.length_append, List.length_cons]
          omega
        · intro e he
          rw [string_of_version_mem he, hdrop']
          exact hnone e.1
      simp only [HttpRequest.parse, tryGetMethod_append, andThen_value, List.length_singleton, huri,
        hversion, andThen_unexpected]
  | @headers m sep uri v after hslash hspace hblock =>
      obtain ⟨offset, hdrop, hparse⟩ := parse_requestLine m sep v after hslash hspace
      rw [hparse]
      exact parseSection_unexpected_of_not_accepted (by rwa [hdrop])

/-- **Every text is accepted, throws or has a fault.** -/
theorem parse_cases (s : Bytes) :
    (∃ r, HttpRequest.parse s = .value r) ∨ HttpRequest.parse s = .outOfRange ∨
      ∃ err, Fault s err := by
  by_cases hmethod : ∃ m : HttpMethod, m.string <+: s
  · obtain ⟨m, back, rfl⟩ := hmethod
    match back with
    | [] => exact .inr (.inl (parse_eq_outOfRange_iff.mpr ⟨m, List.prefix_append _ _, by simp⟩))
    | [sep] => exact .inr (.inl (parse_eq_outOfRange_iff.mpr ⟨m, List.prefix_append _ _, by simp⟩))
    | sep :: b :: rest =>
        by_cases huri : (b :: rest).head? = some slash ∧ space ∈ b :: rest
        · obtain ⟨hslash, hmem⟩ := huri
          obtain ⟨uri, behind, heq, hspace⟩ := List.eq_append_cons_of_mem hmem
          rw [heq] at hslash ⊢
          have hslash' : uri.head? = some slash := by
            cases uri with
            | nil => exact absurd (Option.some.inj hslash) (by decide)
            | cons c uri => exact hslash
          by_cases hversion : ∃ v : HttpVersion, v.string <+: behind
          · obtain ⟨v, after, rfl⟩ := hversion
            by_cases hblock : BlockAccepted (after.drop 2)
            · obtain ⟨fields, body, hsection⟩ := exists_headerBlock_iff.mpr hblock
              exact .inl ⟨{ method := m, uri, version := v, headers := .ofEntries fields, body },
                parse_eq_value_iff.mpr ⟨sep, after, fields, rfl, hslash', hspace, hsection, rfl⟩⟩
            · exact .inr (.inr ⟨_, .headers hslash' hspace hblock⟩)
          · exact .inr (.inr ⟨_, .version hslash' hspace (not_exists.mp hversion)⟩)
        · exact .inr (.inr ⟨_, .uri (List.cons_ne_nil b rest) (not_and_or.mp huri)⟩)
  · exact .inr (.inr ⟨_, .method (not_exists.mp hmethod)⟩)

end HttpRequest

/-! ## Responses -/

namespace HttpResponse

/-- The first stage of `parse` that cannot go on, with its error. -/
inductive Fault : Bytes → Error → Prop where
  /-- The text starts with no version. -/
  | version {s : Bytes} : (∀ v : HttpVersion, ¬ v.string <+: s) → Fault s .parseErrorVersion
  /-- No status follows a byte behind the version. -/
  | status {v : HttpVersion} {sep : UInt8} {rest : Bytes} :
      (∀ c : HttpStatus, ¬ c.expected <+: rest) →
      Fault (v.string ++ sep :: rest) .parseErrorStatus
  /-- What starts two bytes behind the status is no header section. -/
  | headers {v : HttpVersion} {sep : UInt8} {c : HttpStatus} {after : Bytes} :
      ¬ BlockAccepted (after.drop 2) →
      Fault (v.string ++ sep :: (c.expected ++ after)) .parseErrorHeaders

/-- **A fault gives its error.** -/
theorem Fault.parse {s : Bytes} {err : Error} (h : Fault s err) :
    HttpResponse.parse s = .unexpected (makeErrorCode err) := by
  cases h with
  | version hnone =>
      have hversion : tryGetVersion s 0 = .unexpected (makeErrorCode .parseErrorVersion) 0 := by
        apply tryGetPrefix_unexpected (Nat.zero_le _)
        intro e he
        rw [string_of_version_mem he]
        exact hnone e.1
      rw [HttpResponse.parse, hversion, andThen_unexpected]
  | @status v sep rest hnone =>
      have hversion : tryGetVersion (v.string ++ sep :: rest) 0 = .value v (0 + v.string.length) :=
        tryGetPrefix_value prefixFree_version (Nat.zero_le _) (version_mem v)
          (List.prefix_append _ _)
      have hdrop : (v.string ++ sep :: rest).drop (v.string.length + 1) = rest :=
        List.drop_length_add_append 1
      have hstatus : tryGetStatus (v.string ++ sep :: rest) (v.string.length + 1)
          = .unexpected (makeErrorCode .parseErrorStatus) (v.string.length + 1) := by
        apply tryGetPrefix_unexpected
        · simp only [List.length_append, List.length_cons]
          omega
        · intro e he
          rw [string_of_status_mem he, hdrop]
          exact hnone e.1
      simp only [HttpResponse.parse, hversion, andThen_value, Nat.zero_add, List.length_singleton,
        hstatus, andThen_unexpected]
  | @headers v sep c after hblock =>
      obtain ⟨offset, hdrop, hparse⟩ := parse_statusLine v sep c after
      rw [hparse]
      exact parseSection_unexpected_of_not_accepted (by rwa [hdrop])

/-- **Every text is accepted, throws or has a fault.** -/
theorem parse_cases (s : Bytes) :
    (∃ r, HttpResponse.parse s = .value r) ∨ HttpResponse.parse s = .outOfRange ∨
      ∃ err, Fault s err := by
  by_cases hversion : ∃ v : HttpVersion, v.string <+: s
  · obtain ⟨v, back, rfl⟩ := hversion
    match back with
    | [] => exact .inr (.inl (parse_eq_outOfRange_iff.mpr ⟨v, List.append_nil _⟩))
    | sep :: rest =>
        by_cases hstatus : ∃ c : HttpStatus, c.expected <+: rest
        · obtain ⟨c, after, rfl⟩ := hstatus
          by_cases hblock : BlockAccepted (after.drop 2)
          · obtain ⟨fields, body, hsection⟩ := exists_headerBlock_iff.mpr hblock
            exact .inl ⟨{ body, headers := .ofEntries fields, status := c, version := v },
              parse_eq_value_iff.mpr ⟨sep, after, fields, rfl, hsection, rfl⟩⟩
          · exact .inr (.inr ⟨_, .headers hblock⟩)
        · exact .inr (.inr ⟨_, .status (not_exists.mp hstatus)⟩)
  · exact .inr (.inr ⟨_, .version (not_exists.mp hversion)⟩)

end HttpResponse

/-- **The error names the first fault.** A parser returns an error exactly
where one of its stages cannot go on, and the error is the one of that
stage; no text has faults of two stages, and no stage has
`parse_error_body` for its error. -/
theorem parse_unexpected_iff (s : Bytes) :
    ((∀ e, HttpRequest.parse s = .unexpected e ↔
        ∃ err, HttpRequest.Fault s err ∧ e = makeErrorCode err) ∧
      (∀ err err', HttpRequest.Fault s err → HttpRequest.Fault s err' → err = err') ∧
      HttpRequest.parse s ≠ .unexpected (makeErrorCode .parseErrorBody)) ∧
    ((∀ e, HttpResponse.parse s = .unexpected e ↔
        ∃ err, HttpResponse.Fault s err ∧ e = makeErrorCode err) ∧
      (∀ err err', HttpResponse.Fault s err → HttpResponse.Fault s err' → err = err') ∧
      HttpResponse.parse s ≠ .unexpected (makeErrorCode .parseErrorBody)) := by
  have hrequest := unexpected_iff_of_cases (fun _ => HttpRequest.Fault.parse)
    (HttpRequest.parse_cases s)
  have hresponse := unexpected_iff_of_cases (fun _ => HttpResponse.Fault.parse)
    (HttpResponse.parse_cases s)
  refine ⟨⟨hrequest, ?_, ?_⟩, ⟨hresponse, ?_, ?_⟩⟩
  · exact fun err err' => fault_unique fun _ => HttpRequest.Fault.parse
  · intro h
    obtain ⟨err, hfault, hcode⟩ := (hrequest _).mp h
    cases makeErrorCode_injective hcode
    cases hfault
  · exact fun err err' => fault_unique fun _ => HttpResponse.Fault.parse
  · intro h
    obtain ⟨err, hfault, hcode⟩ := (hresponse _).mp h
    cases makeErrorCode_injective hcode
    cases hfault

end Pine
