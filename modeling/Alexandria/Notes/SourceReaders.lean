import Alexandria.Foundations.Utf8
import Alexandria.Notes.ConcurrentRepairs
import Alexandria.Notes.Overwrite

/-! # Two readers of a source

The index reads a file as text, with universal newlines. A read under a byte ceiling decodes the bytes as they are. What
is made of the text is the same afterwards, so the two agree where the translation of the line ends changes nothing.
-/

namespace Alexandria.Notes
set_option autoImplicit false
open Text

variable {φ : Type}

/-! ## The readers -/

def scanLimitExceeded : String := "SOURCE_SCAN_LIMIT_EXCEEDED"

/-- `_read_source_text`. The text of a file stands for its UTF-8 bytes. -/
def readSourceText (file : SourceFile) : Option ℤ → Except String (List Char)
  | none => .ok (universalNewlines file.text)
  | some maxSourceBytes =>
    if maxSourceBytes ≤ 0 then .error scanLimitExceeded
    else if maxSourceBytes < Utf8.size file.text then .error scanLimitExceeded
    else .ok file.text

section Readers
variable (env : NoteEnvironment φ)

/-- What `_note_payload_from_path` makes of the text it has read. -/
def notePayloadFromText (relativePath modifiedAt : String) (text : List Char) : Except String (Option (ObsidianNote φ)) := do
  if env.containsSecretField text then
    .error "FRONTMATTER_SECRET_DETECTED: frontmatter contains a secret-like field"
  else
    let document ← Markdown.parseMarkdownDocument env.floats text
    let fields := frontmatterJson document.frontmatter
    match ← noteTypeFromFrontmatter env fields with
    | none => .ok none
    | some noteType =>
      match (frontmatterText fields "id").filter (· ≠ "") with
      | none => .error "FRONTMATTER_PARSE_ERROR: managed note is missing id"
      | some noteId =>
        let note : ObsidianNote φ :=
          { noteId := noteId
            relativePath := relativePath
            alexandriaType := noteType
            title := env.titleFromParts document.frontmatter document.body relativePath
            status := ((frontmatterText fields "status").filter (· ≠ "")).getD "active"
            tags := frontmatterList fields "tags"
            project := frontmatterText fields "project"
            source := frontmatterText fields "source"
            contentHash := env.hashText (String.ofList text)
            sourceHash := env.hashText (String.ofList text)
            frontmatter := fields.set "alexandria_type" (.str noteType.value)
            body := document.body
            modifiedAt := modifiedAt }
        if noteType = .context then
          let identity ← contextIdentityFromFrontmatter env.text note.frontmatter note.project note.status
            (contextContentHash env document.body)
          .ok (some
            { note with
              frontmatter := (note.frontmatter.update (normalizedContextFrontmatter identity)).erase "provenance"
              project := identity.identity.project
              status := identity.status.value
              contentHash := identity.contentHash })
        else .ok (some note)

/-- `_note_payload_from_path` -/
def notePayloadFromPath (relativePath : String) (file : SourceFile) (maxSourceBytes : Option ℤ) :
    Except String (Option (ObsidianNote φ)) := do
  let text ← readSourceText file maxSourceBytes
  notePayloadFromText env relativePath file.modifiedAt text

/-- `source_matches_hash`; `validatedSourcePath` is `_validated_source_path`. -/
def sourceMatchesHash (validatedSourcePath : String → Except String String) (vault : Vault φ) (relativePath sourceHash : String)
    (maxSourceBytes : ℤ) : Bool :=
  if sourceHash = "" then false
  else
    match validatedSourcePath relativePath with
    | .error _ => false
    | .ok safePath =>
      match vault.file safePath with
      | none => false
      | some file =>
        match readSourceText file (some maxSourceBytes) with
        | .error _ => false
        | .ok text => env.hashText (String.ofList text) = sourceHash

end Readers

/-- The values of a payload that are compared later. -/
def SamePayload (a b : ObsidianNote φ) : Prop :=
  a.sourceHash = b.sourceHash ∧ a.contentHash = b.contentHash ∧ a.frontmatter = b.frontmatter ∧ a.body = b.body

/-! ## What a payload holds -/

section Payload
variable {env : NoteEnvironment φ} {relativePath modifiedAt : String} {text : List Char} {note : ObsidianNote φ}

theorem notePayloadFromText_sourceHash (h : notePayloadFromText env relativePath modifiedAt text = .ok (some note)) :
    note.sourceHash = env.hashText (String.ofList text) := by
  unfold notePayloadFromText at h
  simp only at h
  split at h
  · cases h
  · obtain ⟨document, -, hdocument⟩ := Keyed.bind_eq_ok h
    obtain ⟨noteType, -, htype⟩ := Keyed.bind_eq_ok hdocument
    cases noteType with
    | none => cases htype
    | some noteType =>
      simp only at htype
      cases hid : (frontmatterText (frontmatterJson document.frontmatter) "id").filter (· ≠ "") with
      | none =>
        rw [hid] at htype
        cases htype
      | some noteId =>
        rw [hid] at htype
        simp only at htype
        split at htype
        · obtain ⟨identity, -, hnote⟩ := Keyed.bind_eq_ok htype
          rw [← Option.some.inj (Except.ok.inj hnote)]
        · rw [← Option.some.inj (Except.ok.inj htype)]

/-- An empty file is no note. -/
theorem notePayloadFromText_nil (env : NoteEnvironment φ) (relativePath modifiedAt : String) (note : ObsidianNote φ) :
    notePayloadFromText env relativePath modifiedAt [] ≠ .ok (some note) := by
  intro h
  unfold notePayloadFromText at h
  simp only at h
  split at h
  · cases h
  · cases h

/-! ## Reading under a ceiling -/

variable {file : SourceFile} {maxSourceBytes : ℤ}

theorem readSourceText_ceiling (file : SourceFile) (maxSourceBytes : ℤ) : readSourceText file (some maxSourceBytes) =
    if maxSourceBytes ≤ 0 then .error scanLimitExceeded
    else if maxSourceBytes < Utf8.size file.text then .error scanLimitExceeded
    else .ok file.text := rfl

theorem readSourceText_some (hpos : 0 < maxSourceBytes) (hsize : (Utf8.size file.text : ℤ) ≤ maxSourceBytes) :
    readSourceText file (some maxSourceBytes) = .ok file.text := by
  rw [readSourceText_ceiling, if_neg (not_le.mpr hpos), if_neg (not_lt.mpr hsize)]

theorem size_pos (h : file.text ≠ []) : 0 < Utf8.size file.text :=
  Nat.lt_of_lt_of_le (List.length_pos_iff.mpr h) (Utf8.length_le_size _)

/-- A file from which either reader builds a payload is not empty, so the ceiling is above zero. -/
theorem ceiling_pos (hsize : (Utf8.size file.text : ℤ) ≤ maxSourceBytes)
    (hbuilt : (∃ p, notePayloadFromPath env relativePath file none = .ok (some p)) ∨
      ∃ p, notePayloadFromPath env relativePath file (some maxSourceBytes) = .ok (some p)) : 0 < maxSourceBytes := by
  obtain ⟨p, hp⟩ | ⟨p, hp⟩ := hbuilt
  · have hne : file.text ≠ [] := by
      intro hnil
      obtain ⟨text, htext, hpayload⟩ := Keyed.bind_eq_ok hp
      cases htext
      rw [hnil] at hpayload
      exact notePayloadFromText_nil env _ _ p hpayload
    have := size_pos hne
    omega
  · obtain ⟨text, htext, -⟩ := Keyed.bind_eq_ok hp
    by_contra hpos
    rw [readSourceText_ceiling, if_pos (not_lt.mp hpos)] at htext
    cases htext

theorem universalNewlines_eq_self_iff {text : List Char} : universalNewlines text = text ↔ '\r' ∉ text := by
  constructor
  · intro h
    rw [← h]
    exact return_not_mem_universalNewlines text
  · exact universalNewlines_eq_self

/-- The two readers build the same payload, and the hash of the one is found again by the other, exactly when the file
has no carriage return. Of the hash it is used that it is never empty and does not collide on the two readings. -/
theorem readers_agree_iff {validatedSourcePath : String → Except String String} {vault : Vault φ}
    (hhash : ∀ text, env.hashText text ≠ "")
    (hcollision : env.hashText (String.ofList (universalNewlines file.text)) = env.hashText (String.ofList file.text) →
      universalNewlines file.text = file.text)
    (hpath : validatedSourcePath relativePath = .ok relativePath) (hfile : vault.file relativePath = some file)
    (hsize : (Utf8.size file.text : ℤ) ≤ maxSourceBytes)
    (hbuilt : (∃ p, notePayloadFromPath env relativePath file none = .ok (some p)) ∨
      ∃ p, notePayloadFromPath env relativePath file (some maxSourceBytes) = .ok (some p)) :
    ((∃ p q, notePayloadFromPath env relativePath file none = .ok (some p) ∧
        notePayloadFromPath env relativePath file (some maxSourceBytes) = .ok (some q) ∧ SamePayload p q) ↔
      '\r' ∉ file.text) ∧
    ∀ p, notePayloadFromPath env relativePath file none = .ok (some p) →
      (sourceMatchesHash env validatedSourcePath vault relativePath p.sourceHash maxSourceBytes = true ↔
        '\r' ∉ file.text) := by
  have hread := readSourceText_some (ceiling_pos hsize hbuilt) hsize
  have hbounded : notePayloadFromPath env relativePath file (some maxSourceBytes) =
      notePayloadFromText env relativePath file.modifiedAt file.text := by
    unfold notePayloadFromPath
    rw [hread]
    rfl
  have hfree : notePayloadFromPath env relativePath file none =
      notePayloadFromText env relativePath file.modifiedAt (universalNewlines file.text) := rfl
  rw [hbounded, hfree] at hbuilt ⊢
  refine ⟨⟨?_, ?_⟩, ?_⟩
  · rintro ⟨p, q, hp, hq, hsource, -⟩
    rw [notePayloadFromText_sourceHash hp, notePayloadFromText_sourceHash hq] at hsource
    exact universalNewlines_eq_self_iff.mp (hcollision hsource)
  · intro hreturns
    rw [universalNewlines_eq_self hreturns] at hbuilt ⊢
    obtain ⟨p, hp⟩ : ∃ p, notePayloadFromText env relativePath file.modifiedAt file.text = .ok (some p) := by
      obtain hp | hp := hbuilt
      · exact hp
      · exact hp
    exact ⟨p, p, hp, hp, rfl, rfl, rfl, rfl⟩
  · intro p hp
    rw [notePayloadFromText_sourceHash hp]
    unfold sourceMatchesHash
    rw [if_neg (hhash _)]
    simp only [hpath, hfile, hread, decide_eq_true_eq]
    constructor
    · intro hsame
      exact universalNewlines_eq_self_iff.mp (hcollision hsame.symm)
    · intro hreturns
      rw [universalNewlines_eq_self hreturns]

end Payload

/-! ## A prompt with either line end -/

/-- The hash of a text is the text after a mark. -/
def markedEnvironment : NoteEnvironment Unit := { plainEnvironment with hashText := fun text => "#" ++ text }

def promptFile (lineEnd : String) : SourceFile :=
  ⟨String.toList ("---" ++ lineEnd ++ "type: prompt" ++ lineEnd ++ "id: p" ++ lineEnd ++ "---" ++ lineEnd ++ "x"), ""⟩

def promptVault (lineEnd : String) : Vault Unit := ⟨[("p.md", promptFile lineEnd)], []⟩

theorem markedEnvironment_hash_ne (text : String) : markedEnvironment.hashText text ≠ "" := by
  intro h
  have hlist := congrArg String.toList h
  rw [show markedEnvironment.hashText text = "#" ++ text from rfl, String.toList_append] at hlist
  cases hlist

theorem built_of_isSome {r : Except String (Option (ObsidianNote φ))} (h : r.toOption.join.isSome = true) :
    ∃ p, r = .ok (some p) := by
  cases r with
  | error text => cases h
  | ok built =>
    cases built with
    | none => cases h
    | some p => exact ⟨p, rfl⟩

theorem prompt_built : ∃ p, notePayloadFromPath markedEnvironment "p.md" (promptFile "\n") none = .ok (some p) :=
  built_of_isSome (by decide)

theorem readers_agree_linefeed :
    ((∃ p q, notePayloadFromPath markedEnvironment "p.md" (promptFile "\n") none = .ok (some p) ∧
        notePayloadFromPath markedEnvironment "p.md" (promptFile "\n") (some 64) = .ok (some q) ∧ SamePayload p q) ↔
      '\r' ∉ (promptFile "\n").text) ∧
    ∀ p, notePayloadFromPath markedEnvironment "p.md" (promptFile "\n") none = .ok (some p) →
      (sourceMatchesHash markedEnvironment .ok (promptVault "\n") "p.md" p.sourceHash 64 = true ↔
        '\r' ∉ (promptFile "\n").text) :=
  readers_agree_iff markedEnvironment_hash_ne (fun _ => by decide) rfl rfl (by decide) (.inl prompt_built)

/-- With the other line end the two readers build different payloads, and the file that was just indexed is reported as
changed. -/
theorem crlf_reported : ∃ p q,
    notePayloadFromPath markedEnvironment "p.md" (promptFile "\r\n") none = .ok (some p) ∧
      notePayloadFromPath markedEnvironment "p.md" (promptFile "\r\n") (some 64) = .ok (some q) ∧
      p.sourceHash ≠ q.sourceHash ∧
      sourceMatchesHash markedEnvironment .ok (promptVault "\r\n") "p.md" p.sourceHash 64 = false := by
  obtain ⟨p, hp⟩ : ∃ p, notePayloadFromPath markedEnvironment "p.md" (promptFile "\r\n") none = .ok (some p) :=
    built_of_isSome (by decide)
  obtain ⟨q, hq⟩ : ∃ q, notePayloadFromPath markedEnvironment "p.md" (promptFile "\r\n") (some 64) = .ok (some q) :=
    built_of_isSome (by decide)
  have hfree : p.sourceHash = markedEnvironment.hashText (String.ofList (universalNewlines (promptFile "\r\n").text)) := by
    obtain ⟨text, htext, hpayload⟩ := Keyed.bind_eq_ok hp
    cases htext
    exact notePayloadFromText_sourceHash hpayload
  have hbounded : q.sourceHash = markedEnvironment.hashText (String.ofList (promptFile "\r\n").text) := by
    obtain ⟨text, htext, hpayload⟩ := Keyed.bind_eq_ok hq
    cases htext
    exact notePayloadFromText_sourceHash hpayload
  refine ⟨p, q, hp, hq, ?_, ?_⟩
  · rw [hfree, hbounded]
    decide
  · rw [hfree]
    decide

end Alexandria.Notes
