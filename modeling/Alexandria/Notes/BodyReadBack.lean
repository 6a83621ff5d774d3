import Alexandria.Notes.UnbrokenSaves

/-! # Bodies that are read back

The parser joins the lines of a body with line feeds. The renderer writes a blank line before a body and one line feed after it,
and both are read as part of the body.
-/

namespace Alexandria.Notes
set_option autoImplicit false
open Text
open Markdown (FrontmatterValue Floats renderFrontmatterValue)
open Markdown.Native (OneLine oneLine_of_all delimiter bodyOf Block)

variable {φ : Type} {env : NoteEnvironment φ} {note : ObsidianNote φ}

/-! ## What a file reads as -/

theorem decoded_unbroken {entries : List Markdown.Native.FrontmatterEntry} {floats : Floats φ}
    (hkeys : ∀ e ∈ entries, OneLineText e.key)
    (hentries : Markdown.Native.EntriesOf (fun c => Markdown.Native.isLineBreak c = false) entries) :
    UnbrokenFields (frontmatterJson (entries.map (Markdown.decodeEntry floats))) := by
  have hscalar : ∀ x : Markdown.FrontmatterScalar φ, (∀ text, x = .str text → OneLineText text) → UnbrokenItem (jsonScalar x) := by
    intro x hx
    cases x with
    | str text => exact hx text rfl
    | _ => trivial
  intro field hfield
  obtain ⟨item, hitem, rfl⟩ := List.mem_map.mp hfield
  have htexts := Markdown.oneLine_of_decode hentries (rfl : entries.map (Markdown.decodeEntry floats) = _) item hitem
  obtain ⟨e, he, rfl⟩ := List.mem_map.mp hitem
  refine ⟨hkeys e he, fun _ => ?_, ?_⟩
  · cases hvalue : (Markdown.decodeEntry floats e).2 with
    | scalar x => cases x <;> rfl
    | list xs => rfl
  · cases hvalue : (Markdown.decodeEntry floats e).2 with
    | scalar x =>
      rw [hvalue] at htexts
      have hline := hscalar x fun text htext => htexts text (List.mem_singleton.mpr htext.symm)
      cases x <;> exact hline
    | list xs =>
      rw [hvalue] at htexts
      intro value hmem
      obtain ⟨x, hx, rfl⟩ := List.mem_map.mp hmem
      exact hscalar x fun text htext => htexts text (htext ▸ hx)

/-- The fields of a note before those of its identity. -/
def typedFields (fields : JsonObject φ) (noteType : AlexandriaNoteType) : JsonObject φ :=
  fields.set "alexandria_type" (.str noteType.value)

def readStatus (fields : JsonObject φ) : String := ((frontmatterText fields "status").filter (· ≠ "")).getD "active"

/-- The document of a note, and what else was taken from it. -/
structure ReadFrom (env : NoteEnvironment φ) (note : ObsidianNote φ) (fields : JsonObject φ)
    (noteType : AlexandriaNoteType) : Prop where
  noteId : (frontmatterText fields "id").filter (· ≠ "") = some note.noteId
  tags : note.tags = frontmatterList fields "tags"
  source : note.source = frontmatterText fields "source"
  identity : (note.frontmatter = typedFields fields noteType ∧ note.project = frontmatterText fields "project" ∧
      note.status = readStatus fields) ∨
    ∃ identity, contextIdentityFromFrontmatter env.text (typedFields fields noteType) (frontmatterText fields "project")
        (readStatus fields) (contextContentHash env note.body) = .ok identity ∧
      note.frontmatter = ((typedFields fields noteType).update (normalizedContextFrontmatter identity)).erase "provenance" ∧
      note.project = identity.identity.project ∧ note.status = identity.status.value

theorem noteIndexFromFile_document {path : String} {file : SourceFile}
    (h : noteIndexFromFile env path file = .ok (some note)) :
    ∃ document, Markdown.parseMarkdownDocument env.floats (universalNewlines file.text) = .ok document ∧
      note.body = document.body ∧ ∃ noteType, ReadFrom env note (frontmatterJson document.frontmatter) noteType := by
  unfold noteIndexFromFile at h
  simp only at h
  split at h
  · cases h
  · obtain ⟨document, hparse, hdocument⟩ := Keyed.bind_eq_ok h
    obtain ⟨noteType, -, htype⟩ := Keyed.bind_eq_ok hdocument
    refine ⟨document, hparse, ?_⟩
    cases noteType with
    | none => cases htype
    | some noteType =>
      simp only at htype
      cases hid : (frontmatterText (frontmatterJson document.frontmatter) "id").filter (· ≠ "") with
      | none =>
        rw [hid] at htype
        cases htype
      | some noteId =>
        rw [hid] at htype
        simp only at htype
        split at htype
        · obtain ⟨identity, hidentity, hnote⟩ := Keyed.bind_eq_ok htype
          obtain rfl := Option.some.inj (Except.ok.inj hnote)
          refine ⟨rfl, noteType, hid, rfl, rfl, .inr ⟨identity, ?_, ?_, rfl, rfl⟩⟩
          · unfold typedFields readStatus
            exact hidentity
          · unfold typedFields
            with_reducible rfl
        · obtain rfl := Option.some.inj (Except.ok.inj htype)
          refine ⟨rfl, noteType, hid, rfl, rfl, .inl ⟨?_, ?_, ?_⟩⟩
          · rfl
          · rfl
          · rfl

theorem frontmatterText_line {fields : JsonObject φ} (h : UnbrokenFields fields) (name : String) :
    LineText (frontmatterText fields name) := by
  intro text htext
  have hvalue := h.get name
  unfold frontmatterText at htext
  cases hget : fields.get name with
  | str found =>
    rw [hget] at htext hvalue
    cases htext
    exact hvalue
  | null => rw [hget] at htext; cases htext
  | bool flag => rw [hget] at htext; cases htext
  | int n => rw [hget] at htext; cases htext
  | float x => rw [hget] at htext; cases htext
  | list items => rw [hget] at htext; cases htext
  | object inner => rw [hget] at htext; cases htext

theorem frontmatterList_line {fields : JsonObject φ} (h : UnbrokenFields fields) (name : String) :
    ∀ text ∈ frontmatterList fields name, OneLineText text := by
  intro text htext
  have hvalue := h.get name
  unfold frontmatterList at htext
  split at htext
  · rename_i items hitems
    rw [hitems] at hvalue
    obtain ⟨item, hitem, htext⟩ := List.mem_filterMap.mp htext
    have hline := hvalue item hitem
    cases item with
    | str found =>
      cases htext
      exact hline
    | _ => cases htext
  · rename_i found hfound
    rw [hfound] at hvalue
    split at htext
    · cases htext
    · rw [List.mem_singleton.mp htext]
      exact hvalue
  · cases htext

theorem readStatus_line {fields : JsonObject φ} (h : UnbrokenFields fields) : OneLineText (readStatus fields) := by
  unfold readStatus
  cases hfound : (frontmatterText fields "status").filter (· ≠ "") with
  | none => exact oneLine_of_all (by decide)
  | some status => exact frontmatterText_line h "status" status (Option.mem_filter_iff.mp hfound).1

/-- The texts of a note that is read from a file have no line break. -/
theorem noteIndexFromFile_unbroken (henv : KeepsLines env) {path : String} {file : SourceFile}
    (h : noteIndexFromFile env path file = .ok (some note)) :
    UnbrokenNote note ∧ note.noteId ≠ "" ∧ OneLineText note.noteId := by
  obtain ⟨document, hparse, -, noteType, hread⟩ := noteIndexFromFile_document h
  obtain ⟨-, analysis, hanalysis, hfrontmatter⟩ := Markdown.parseMarkdownDocument_ok hparse
  have hdocument : UnbrokenFields (frontmatterJson document.frontmatter) := by
    rw [hfrontmatter]
    exact decoded_unbroken (Markdown.analyzeDocument_keys hanalysis) (Markdown.analyzeDocument_oneLine hanalysis)
  have hname : OneLineText "alexandria_type" := oneLine_of_all (by decide)
  have htyped : UnbrokenFields (typedFields (frontmatterJson document.frontmatter) noteType) :=
    hdocument.set ⟨hname, fun _ => rfl, noteType_line noteType⟩
  have hproject := frontmatterText_line hdocument "project"
  have hstatus := readStatus_line hdocument
  obtain ⟨hid, hne⟩ := Option.mem_filter_iff.mp hread.noteId
  refine ⟨?_, by simpa using hne, frontmatterText_line hdocument "id" _ hid⟩
  have htags : ∀ tag ∈ note.tags, OneLineText tag := by
    rw [hread.tags]
    exact frontmatterList_line hdocument "tags"
  have hsource : LineText note.source := by
    rw [hread.source]
    exact frontmatterText_line hdocument "source"
  obtain ⟨hfields, hnoteProject, hnoteStatus⟩ | ⟨identity, hidentity, hfields, hnoteProject, hnoteStatus⟩ := hread.identity
  · exact ⟨hfields ▸ htyped, htags, hnoteStatus ▸ hstatus, hnoteProject ▸ hproject, hsource⟩
  · have hwritable := normalizedContextFrontmatter_writable (φ := φ) htyped henv.timestamp hproject (henv.hash _) hidentity
    have hidentityProject : LineText identity.identity.project := by
      intro text htext
      have hvalue := (hwritable ("project", .ofText identity.identity.project) (by simp [normalizedContextFrontmatter])).value
      exact hvalue.text (by rw [JsonValue.text?_ofText]; exact htext)
    exact ⟨hfields ▸ identity_unbroken htyped henv.timestamp hproject (henv.hash _) hidentity, htags,
      hnoteStatus ▸ status_line _, hnoteProject ▸ hidentityProject, hsource⟩

/-! ## Lines of a body -/

theorem parseMarkdownDocument_analysis {text : List Char} {document : Markdown.MarkdownDocument φ} {floats : Floats φ}
    (h : Markdown.parseMarkdownDocument floats text = .ok document) :
    ∃ analysis, Markdown.Native.analyzeDocument text = .ok analysis ∧
      document.frontmatter = analysis.frontmatter.map (Markdown.decodeEntry floats) ∧
      document.body = String.ofList analysis.body := by
  obtain ⟨-, analysis, hanalysis, hfrontmatter⟩ := Markdown.parseMarkdownDocument_ok h
  obtain ⟨analysis', hanalysis', hbody⟩ := parseMarkdownDocument_body h
  cases hanalysis.symm.trans hanalysis'
  exact ⟨analysis, hanalysis, hfrontmatter, hbody⟩

/-- A document with a frontmatter has a body of lines joined by line feeds. -/
theorem analyzeDocument_body {text : List Char} {analysis : Markdown.Native.DocumentAnalysis}
    (h : Markdown.Native.analyzeDocument text = .ok analysis) :
    analysis.frontmatter = [] ∨ LineFeeds analysis.body := by
  cases hfrontmatter : analysis.hasFrontmatter with
  | false =>
    left
    unfold Markdown.Native.analyzeDocument at h
    split at h
    · cases h
      rfl
    · split at h
      · simp only at h
        split at h
        · cases h
        · split at h
          · cases h
          · cases h
            cases hfrontmatter
      · cases h
        rfl
  | true =>
    right
    obtain ⟨opening, content, closing, after, hblock⟩ := Markdown.Native.block_of_analyze h hfrontmatter
    have hparts := hblock.analyze
    rw [h] at hparts
    have htexts := hblock.texts
    rw [Markdown.Native.splitLogicalLines_texts] at htexts
    have hunbroken : ∀ line ∈ after, Unbroken line := by
      intro line hline
      have hmem : line ∈ splitlines text := by
        rw [htexts]
        simp [hline]
      exact (mem_splitlines hmem).1
    cases hstate : Markdown.Native.parseLinesFrom ⟨[], [], none⟩ content with
    | error e =>
      rw [hstate] at hparts
      cases hparts
    | ok s =>
      rw [hstate] at hparts
      have hbody : analysis.body = bodyOf text after := (Prod.ext_iff.mp (Prod.ext_iff.mp (Except.ok.inj hparts)).2).2
      rw [hbody]
      unfold bodyOf
      simp only
      split
      · exact (lineFeeds_intercalate hunbroken).append (lineFeeds_of_all (by decide))
      · exact lineFeeds_intercalate hunbroken

/-- The body of a note that is read has no other line break. -/
theorem noteIndexFromFile_lineFeeds {path : String} {file : SourceFile}
    (h : noteIndexFromFile env path file = .ok (some note)) : LineFeeds note.body.toList := by
  obtain ⟨document, hparse, hbody, noteType, hfrom⟩ := noteIndexFromFile_document h
  obtain ⟨analysis, hanalysis, hfrontmatter, hread⟩ := parseMarkdownDocument_analysis hparse
  obtain hnil | hlines := analyzeDocument_body hanalysis
  · have hid := hfrom.noteId
    rw [hfrontmatter, hnil] at hid
    cases hid
  · rw [hbody, hread, String.toList_ofList]
    exact hlines

/-! ## Writing and reading back -/

/-- What a body reads as after it was written. -/
def reread (body : List Char) : List Char := '\n' :: (body.rdropWhile (· = '\n') ++ ['\n'])

section Written
variable {str : NestedText φ} {fields : JsonObject φ}

theorem yamlScalar_unbroken (hfloats : ∀ x, OneLineText (env.floats.str x)) (hstr : ∀ value, OneLineText (str value))
    {value : JsonValue φ} (h : UnbrokenItem value) : OneLine (Markdown.yamlScalar env.floats (frontmatterScalar str value)) := by
  cases value with
  | null => exact Markdown.yamlScalar_oneLine (by simp [frontmatterScalar, Markdown.FrontmatterScalar.Exact]) (by simp [frontmatterScalar])
  | bool flag => exact Markdown.yamlScalar_oneLine (by simp [frontmatterScalar, Markdown.FrontmatterScalar.Exact]) (by simp [frontmatterScalar])
  | int n => exact Markdown.yamlScalar_oneLine (by simp [frontmatterScalar, Markdown.FrontmatterScalar.Exact]) (by simp [frontmatterScalar])
  | float x => exact hfloats x
  | str text =>
    refine Markdown.yamlScalar_oneLine (by simp [frontmatterScalar, Markdown.FrontmatterScalar.Exact]) ?_
    intro other hother
    cases hother
    exact h
  | list items =>
    refine Markdown.yamlScalar_oneLine (by simp [frontmatterScalar, Markdown.FrontmatterScalar.Exact]) ?_
    intro other hother
    cases hother
    exact hstr _
  | object inner =>
    refine Markdown.yamlScalar_oneLine (by simp [frontmatterScalar, Markdown.FrontmatterScalar.Exact]) ?_
    intro other hother
    cases hother
    exact hstr _

theorem renderedField_oneLine (hfloats : ∀ x, OneLineText (env.floats.str x)) (hstr : ∀ value, OneLineText (str value))
    {field : String × JsonValue φ} (h : UnbrokenField field) :
    ∀ l ∈ renderFrontmatterValue env.floats field.1 (frontmatterValue str field.2), OneLine l := by
  refine Markdown.renderFrontmatterValue_oneLine h.name ?_
  intro x hx
  obtain ⟨name, value⟩ := field
  have hvalue := h.value
  cases value with
  | list items =>
    obtain ⟨item, hitem, rfl⟩ := List.mem_map.mp hx
    exact yamlScalar_unbroken hfloats hstr (hvalue item hitem)
  | null => exact List.mem_singleton.mp hx ▸ yamlScalar_unbroken hfloats hstr hvalue
  | bool flag => exact List.mem_singleton.mp hx ▸ yamlScalar_unbroken hfloats hstr hvalue
  | int n => exact List.mem_singleton.mp hx ▸ yamlScalar_unbroken hfloats hstr hvalue
  | float x => exact List.mem_singleton.mp hx ▸ yamlScalar_unbroken hfloats hstr hvalue
  | str text => exact List.mem_singleton.mp hx ▸ yamlScalar_unbroken hfloats hstr hvalue
  | object inner => exact List.mem_singleton.mp hx ▸ yamlScalar_unbroken hfloats hstr hvalue

/-- A body that was written below unbroken fields. -/
theorem noteIndexFromFile_reread (hfloats : ∀ x, OneLineText (env.floats.str x)) (hstr : ∀ value, OneLineText (str value))
    (hfields : UnbrokenFields fields) {body path now : String} (hbody : LineFeeds body.toList)
    (h : noteIndexFromFile env path ⟨renderDocument env str fields body, now⟩ = .ok (some note)) :
    note.body.toList = reread body.toList := by
  have hone : ∀ l ∈ Markdown.renderedLines env.floats (renderedMapping str fields), OneLine l := by
    intro l hl
    obtain ⟨item, hitem, hl⟩ := List.mem_flatMap.mp hl
    obtain ⟨field, hfield, rfl⟩ := List.mem_map.mp hitem
    exact renderedField_oneLine hfloats hstr (hfields field hfield) l hl
  have hover := renderedOver_render hone hbody
  obtain ⟨document, hparse, hread, -⟩ := noteIndexFromFile_document h
  have htext : universalNewlines (renderDocument env str fields body) =
      Markdown.renderMarkdownDocument env.floats (renderedMapping str fields) body := universalNewlines_eq_self hover.noReturn
  rw [htext] at hparse
  obtain ⟨analysis, hanalysis, -, hanalyzed⟩ := parseMarkdownDocument_analysis hparse
  rw [hread, hanalyzed, String.toList_ofList]
  exact hover.analyzed hanalysis

end Written

end Alexandria.Notes
