import Alexandria.Markdown.LogicalLines
import Alexandria.Notes.Written

/-! # Notes as they are read from files

A file yields scalars and lists of scalars only, so no list that a reader finds in a note holds a mapping. A frontmatter
written on lines of its own is read back field by field; a list comes back with as many items.
-/

namespace Alexandria.Notes
set_option autoImplicit false
open Text
open Markdown (FrontmatterScalar FrontmatterValue Mapping ExactFrontmatter Floats reread valueFromTag scalarFromTag
  renderedLines decodeEntry startsWithDash)
open Markdown.Native (OneLine isLineBreak delimiter bodyOf Block)

variable {φ : Type}

/-! ## Flat values -/

/-- The value is no list with a mapping in it. -/
def FlatValue (value : JsonValue φ) : Prop :=
  ∀ items, value = .list items → ∀ item ∈ items, item.isObject = false

def FlatFields (fields : JsonObject φ) : Prop := ∀ field ∈ fields, FlatValue field.2

theorem flatValue_ofTexts (texts : List String) : FlatValue (JsonValue.ofTexts texts : JsonValue φ) := by
  intro items hitems item hitem
  cases hitems
  obtain ⟨text, -, rfl⟩ := List.mem_map.mp hitem
  rfl

theorem flatValue_of_noList {value : JsonValue φ} (h : ∀ items, value ≠ .list items) : FlatValue value :=
  fun items hitems => absurd hitems (h items)

theorem flatValue_str (text : String) : FlatValue (JsonValue.str text : JsonValue φ) := by
  apply flatValue_of_noList
  intro items hitems
  cases hitems

theorem jsonScalar_isObject (value : FrontmatterScalar φ) : (jsonScalar value).isObject = false := by
  cases value <;> rfl

theorem FlatFields.get {fields : JsonObject φ} (h : FlatFields fields) (name : String) : FlatValue (fields.get name) := by
  unfold JsonObject.get
  cases hfound : Keyed.lookup Prod.fst name fields with
  | none =>
    apply flatValue_of_noList
    intro items hitems
    cases hitems
  | some field => exact h field (Keyed.lookup_mem hfound).1

theorem FlatFields.set {fields : JsonObject φ} (h : FlatFields fields) {name : String} {value : JsonValue φ}
    (hvalue : FlatValue value) : FlatFields (fields.set name value) := by
  intro field hfield
  obtain rfl | ⟨hfield, -⟩ := Keyed.mem_put.mp hfield
  · exact hvalue
  · exact h field hfield

theorem FlatFields.update {fields entries : JsonObject φ} (h : FlatFields fields) (hentries : FlatFields entries) :
    FlatFields (fields.update entries) := by
  unfold JsonObject.update
  induction entries generalizing fields with
  | nil => exact h
  | cons entry entries ih =>
    rw [List.foldl_cons]
    have hset : FlatFields (fields.set entry.1 entry.2) := h.set (hentries entry List.mem_cons_self)
    exact ih hset fun other hother => hentries other (List.mem_cons_of_mem entry hother)

theorem frontmatterJson_flat (frontmatter : Mapping φ) : FlatFields (frontmatterJson frontmatter) := by
  intro field hfield items hitems item hitem
  obtain ⟨entry, -, rfl⟩ := List.mem_map.mp hfield
  obtain ⟨name, value⟩ := entry
  cases value with
  | scalar value => cases value <;> cases hitems
  | list values =>
    cases hitems
    obtain ⟨value, -, rfl⟩ := List.mem_map.mp hitem
    exact jsonScalar_isObject value

theorem normalizedContextFrontmatter_flat (identity : ObsidianContextIdentity) :
    FlatFields (normalizedContextFrontmatter identity : JsonObject φ) := by
  have htext : ∀ text : Option String, FlatValue (JsonValue.ofText text : JsonValue φ) := by
    intro text
    apply flatValue_of_noList
    intro items hitems
    cases text <;> cases hitems
  have hint : ∀ n : ℤ, FlatValue (JsonValue.int n : JsonValue φ) := by
    intro n
    apply flatValue_of_noList
    intro items hitems
    cases hitems
  unfold FlatFields normalizedContextFrontmatter
  simp only [List.forall_mem_cons, List.not_mem_nil, false_implies, implies_true, and_true, htext, hint,
    flatValue_str, flatValue_ofTexts]

section Read
variable {env : NoteEnvironment φ} {note : ObsidianNote φ}

/-- The frontmatter of a note is that of its document; a Context has the fields of its identity in it. -/
theorem noteIndexFromFile_frontmatter {path : String} {file : SourceFile}
    (h : noteIndexFromFile env path file = .ok (some note)) :
    ∃ document, Markdown.parseMarkdownDocument env.floats (universalNewlines file.text) = .ok document ∧
      ∃ noteType : AlexandriaNoteType,
        note.frontmatter = (frontmatterJson document.frontmatter).set "alexandria_type" (.str noteType.value) ∨
        ∃ identity, note.frontmatter =
          (((frontmatterJson document.frontmatter).set "alexandria_type" (.str noteType.value)).update
            (normalizedContextFrontmatter identity)).erase "provenance" := by
  unfold noteIndexFromFile at h
  simp only at h
  split at h
  · cases h
  · obtain ⟨document, hparse, hdocument⟩ := Keyed.bind_eq_ok h
    obtain ⟨noteType, -, htype⟩ := Keyed.bind_eq_ok hdocument
    refine ⟨document, hparse, ?_⟩
    cases noteType with
    | none => cases htype
    | some noteType =>
      simp only at htype
      cases hid : (frontmatterText (frontmatterJson document.frontmatter) "id").filter (· ≠ "") with
      | none =>
        rw [hid] at htype
        cases htype
      | some noteId =>
        rw [hid] at htype
        simp only at htype
        split at htype
        · obtain ⟨identity, -, hnote⟩ := Keyed.bind_eq_ok htype
          refine ⟨noteType, .inr ⟨identity, ?_⟩⟩
          rw [← Option.some.inj (Except.ok.inj hnote)]
        · refine ⟨noteType, .inl ?_⟩
          rw [← Option.some.inj (Except.ok.inj htype)]

theorem noteIndexFromFile_flat {path : String} {file : SourceFile}
    (h : noteIndexFromFile env path file = .ok (some note)) : FlatFields note.frontmatter := by
  obtain ⟨document, -, noteType, hfrontmatter⟩ := noteIndexFromFile_frontmatter h
  have htyped : FlatFields ((frontmatterJson document.frontmatter).set "alexandria_type" (.str noteType.value)) :=
    (frontmatterJson_flat document.frontmatter).set (flatValue_str _)
  obtain hfrontmatter | ⟨identity, hfrontmatter⟩ := hfrontmatter
  · rw [hfrontmatter]
    exact htyped
  · rw [hfrontmatter]
    have hupdated := htyped.update (normalizedContextFrontmatter_flat identity)
    exact fun field hfield => hupdated field (List.mem_filter.mp hfield).1

/-- A note that is read comes from a file of the vault. -/
theorem readNote_source {vault : Vault φ} {noteId : String} {found : AuthoritativeNote φ}
    (h : readNote env vault noteId = .ok found) :
    ∃ path file, noteIndexFromFile env path file = .ok (some found.note) := by
  have hauthoritative : ∀ (row : Option (ObsidianNote φ)) (payload : ObsidianNote φ),
      authoritativeNote env row noteId payload = .ok found → found.note = payload := by
    intro row payload hok
    unfold authoritativeNote at hok
    split at hok
    · cases hok
    · cases hok
      rfl
  have hsnapshot : ∀ row, readNoteFromSourceSnapshot env vault noteId row = .ok found →
      ∃ path file, noteIndexFromFile env path file = .ok (some found.note) := by
    intro row hok
    unfold readNoteFromSourceSnapshot at hok
    cases hall : vault.files.mapM fun file => noteIndexFromFile env file.1 file.2 with
    | error text =>
      rw [hall] at hok
      cases hok
    | ok payloads =>
      rw [hall] at hok
      simp only at hok
      split at hok
      · cases hok
      · split at hok
        · cases hok
        · rename_i payload hpayload
          have hmem : payload ∈ (payloads.filterMap id).filter fun payload => payload.noteId = noteId := by
            rw [hpayload]
            exact List.mem_singleton_self payload
          obtain ⟨entry, hentry, heq⟩ := List.mem_filterMap.mp (List.mem_filter.mp hmem).1
          obtain ⟨file, -, hnote⟩ := Keyed.mapM_ok_source hall hentry
          simp only [id] at heq
          subst heq
          exact ⟨file.1, file.2, by rw [hauthoritative row payload hok]; exact hnote⟩
        · cases hok
  unfold readNote at h
  split at h
  · exact hsnapshot none h
  · rename_i row hrow
    split at h
    · exact hsnapshot (some row) h
    · rename_i file hfile
      split at h
      · cases h
      · cases h
      · rename_i payload hpayload
        exact ⟨row.relativePath, file, by rw [hauthoritative (some row) payload h]; exact hpayload⟩

end Read

/-! ## A document that was written -/

theorem universalNewlines_append {block : List Char} (h : '\r' ∉ block) (rest : List Char) :
    universalNewlines (block ++ rest) = block ++ universalNewlines rest := by
  induction block with
  | nil => rfl
  | cons c block ih =>
    rw [List.mem_cons, not_or] at h
    rw [List.cons_append, universalNewlines.eq_3, ih h.2, List.cons_append]
    · intro tail hc
      exact absurd hc (Ne.symm h.1)
    · exact Ne.symm h.1

theorem universalNewlines_eq_self {text : List Char} (h : '\r' ∉ text) : universalNewlines text = text := by
  simpa [universalNewlines] using universalNewlines_append h []

/-- The frontmatter as the renderer takes it. -/
def renderedMapping (str : NestedText φ) (fields : JsonObject φ) : Mapping φ :=
  fields.map fun field => (field.1, frontmatterValue str field.2)

section Written
variable {env : NoteEnvironment φ} {str : NestedText φ} {fields : JsonObject φ}

theorem frontmatterScalar_line (hstr : ∀ value, OneLineText (str value)) {value : JsonValue φ} (h : LineScalar value) :
    (frontmatterScalar str value).Exact ∧ ∀ text, frontmatterScalar str value = .str text → OneLineText text := by
  cases value <;> simp_all [frontmatterScalar, FrontmatterScalar.Exact, LineScalar]

theorem frontmatterValue_line (hstr : ∀ value, OneLineText (str value)) {value : JsonValue φ} (h : LineValue value) :
    ∀ x ∈ (frontmatterValue str value).scalars, x.Exact ∧ ∀ text, x = .str text → OneLineText text := by
  intro x hx
  cases value with
  | list items =>
    obtain ⟨item, hitem, rfl⟩ := List.mem_map.mp hx
    exact frontmatterScalar_line hstr (h item hitem)
  | null => exact List.mem_singleton.mp hx ▸ frontmatterScalar_line hstr h
  | bool flag => exact List.mem_singleton.mp hx ▸ frontmatterScalar_line hstr h
  | int n => exact List.mem_singleton.mp hx ▸ frontmatterScalar_line hstr h
  | float n => cases h
  | str text => exact List.mem_singleton.mp hx ▸ frontmatterScalar_line hstr h
  | object fields => exact List.mem_singleton.mp hx ▸ frontmatterScalar_line hstr trivial

theorem renderedMapping_exact (hstr : ∀ value, OneLineText (str value)) (h : WritableFields fields) :
    ∃ frontmatter : ExactFrontmatter φ, frontmatter.items = renderedMapping str fields ∧
      (∀ item ∈ frontmatter.items, startsWithDash item.1 = false) ∧
      ∀ item ∈ frontmatter.items, ∀ text, .str text ∈ item.2.scalars → OneLine text.toList := by
  have hfield : ∀ item ∈ renderedMapping str fields, ∃ field ∈ fields, item = (field.1, frontmatterValue str field.2) := by
    intro item hitem
    obtain ⟨field, hfield, rfl⟩ := List.mem_map.mp hitem
    exact ⟨field, hfield, rfl⟩
  refine ⟨⟨renderedMapping str fields, ?_, ?_, ?_⟩, rfl, ?_, ?_⟩
  · intro item hitem
    obtain ⟨field, hmem, rfl⟩ := hfield item hitem
    exact (isFieldName_validKey (h.writable field hmem).name).1
  · unfold renderedMapping
    rw [List.map_map]
    exact h.distinct
  · intro item hitem value hvalue
    obtain ⟨field, hmem, rfl⟩ := hfield item hitem
    exact (frontmatterValue_line hstr (h.writable field hmem).value value hvalue).1
  · intro item hitem
    obtain ⟨field, hmem, rfl⟩ := hfield item hitem
    exact (isFieldName_validKey (h.writable field hmem).name).2
  · intro item hitem text htext
    obtain ⟨field, hmem, rfl⟩ := hfield item hitem
    exact (frontmatterValue_line hstr (h.writable field hmem).value _ htext).2 text rfl

theorem notMem_intercalate {c : Char} (hc : c ≠ '\n') {lines : List (List Char)} (h : ∀ l ∈ lines, c ∉ l) :
    c ∉ ['\n'].intercalate lines := by
  induction lines with
  | nil => simp
  | cons line lines ih =>
    have hline := h line List.mem_cons_self
    have hlines := ih fun l hl => h l (List.mem_cons_of_mem line hl)
    cases lines with
    | nil => simpa using hline
    | cons next lines =>
      rw [List.intercalate_cons_cons]
      simp [hline, hlines, hc]

/-- A document of writable fields is read back field by field. -/
theorem parseMarkdownDocument_written (hstr : ∀ value, OneLineText (str value)) (h : WritableFields fields)
    {body : String} {document : Markdown.MarkdownDocument φ}
    (hparse : Markdown.parseMarkdownDocument env.floats (universalNewlines (renderDocument env str fields body)) =
      .ok document) :
    document.frontmatter = fields.map fun field =>
      (field.1, valueFromTag env.floats (reread env.floats (frontmatterValue str field.2))) := by
  obtain ⟨frontmatter, hitems, hdash, htexts⟩ := renderedMapping_exact hstr h
  have hline : ∀ l ∈ delimiter :: (renderedLines env.floats frontmatter.items ++ [delimiter]), '\r' ∉ l := by
    intro l hl hc
    have hdelimiter : '\r' ∉ delimiter := by decide
    obtain rfl | hl := List.mem_cons.mp hl
    · exact hdelimiter hc
    · obtain hl | hl := List.mem_append.mp hl
      · obtain ⟨item, hitem, hl⟩ := List.mem_flatMap.mp hl
        have hone := Markdown.renderedLine_oneLine (frontmatter.keys item hitem) (frontmatter.exact item hitem)
          (htexts item hitem) l hl
        exact absurd (hone _ hc) (by decide)
      · exact hdelimiter (List.mem_singleton.mp hl ▸ hc)
  have htext : universalNewlines (renderDocument env str fields body) =
      ['\n'].intercalate (delimiter :: (renderedLines env.floats frontmatter.items ++ [delimiter])) ++
        '\n' :: universalNewlines ('\n' :: (body.toList.rdropWhile (· = '\n') ++ ['\n'])) := by
    have hdocument : renderDocument env str fields body =
        Markdown.renderMarkdownDocument env.floats frontmatter.items body := by
      rw [hitems]
      rfl
    rw [hdocument]
    exact universalNewlines_append (notMem_intercalate (by decide) hline) _
  obtain ⟨-, analysis, hanalysis, hfrontmatter⟩ := Markdown.parseMarkdownDocument_ok hparse
  rw [htext] at hanalysis
  rw [hfrontmatter, Markdown.analyzeDocument_reread env.floats htexts hdash hanalysis, hitems, renderedMapping, List.map_map,
    List.map_map]
  rfl

/-- No text that is rendered plain has a blank at an end. -/
def SettledFields (str : NestedText φ) (fields : JsonObject φ) : Prop :=
  ∀ item ∈ renderedMapping str fields, ∀ text, .str text ∈ item.2.scalars →
    Markdown.canRenderPlain text.toList = true → Markdown.Native.trimmed text.toList = text.toList

theorem parseMarkdownDocument_body {text : List Char} {document : Markdown.MarkdownDocument φ} {floats : Floats φ}
    (h : Markdown.parseMarkdownDocument floats text = .ok document) :
    ∃ analysis, Markdown.Native.analyzeDocument text = .ok analysis ∧ document.body = String.ofList analysis.body := by
  unfold Markdown.parseMarkdownDocument Markdown.Native.analyzeInput at h
  split at h
  · cases h
  · rename_i analysis hanalysis
    split at hanalysis
    · cases hanalysis
    · split at h
      · cases h
      · cases h
        exact ⟨analysis, hanalysis, rfl⟩

/-- The lines of a document whose body has no line break but line feeds. -/
structure RenderedOver (lines : List (List Char)) (body text : List Char) : Prop where
  noReturn : '\r' ∉ text
  block : Block text delimiter lines delimiter (splitlines ('\n' :: (body.rdropWhile (· = '\n') ++ ['\n'])))
  body : bodyOf text (splitlines ('\n' :: (body.rdropWhile (· = '\n') ++ ['\n']))) =
    '\n' :: (body.rdropWhile (· = '\n') ++ ['\n'])

theorem renderedOver_render {floats : Floats φ} {items : Mapping φ} (hone : ∀ l ∈ renderedLines floats items, OneLine l)
    {body : String} (hbody : LineFeeds body.toList) :
    RenderedOver (renderedLines floats items) body.toList (Markdown.renderMarkdownDocument floats items body) := by
  set lines := renderedLines floats items with hlines
  set rest := '\n' :: (body.toList.rdropWhile (· = '\n') ++ ['\n']) with hrest
  have hinside : ∀ l ∈ lines, Markdown.Native.trimmed l ≠ delimiter := by
    intro l hl
    obtain ⟨item, -, hl⟩ := List.mem_flatMap.mp hl
    exact Markdown.renderedLine_inside l hl
  have hhead : ∀ l ∈ delimiter :: (lines ++ [delimiter]), OneLine l := by
    have hdelimiter : OneLine delimiter := Markdown.Native.oneLine_of_all (by decide)
    intro l hl
    simp only [List.mem_cons, List.mem_append, List.not_mem_nil, or_false] at hl
    obtain rfl | hl | rfl := hl
    · exact hdelimiter
    · exact hone l hl
    · exact hdelimiter
  have hdocument : Markdown.renderMarkdownDocument floats items body =
      (delimiter :: (lines ++ [delimiter])).flatMap (fun l => l ++ ['\n']) ++ rest := by
    unfold Markdown.renderMarkdownDocument
    show ['\n'].intercalate (delimiter :: (lines ++ [delimiter])) ++ '\n' :: rest = _
    rw [Markdown.Native.intercalate_newline]
  have hrestLines : LineFeeds rest := by
    have hfront : LineFeeds (body.toList.rdropWhile (· = '\n')) := hbody.mono fun c hc => (List.rdropWhile_prefix _ _).mem hc
    have hnewline : LineFeeds ['\n'] := lineFeeds_of_all (by decide)
    exact hnewline.append (hfront.append hnewline)
  refine ⟨?_, ⟨?_, by decide, by decide, hinside⟩, ?_⟩
  · rw [hdocument, List.mem_append, not_or]
    refine ⟨?_, fun hc => absurd (hrestLines _ hc (by decide)) (by decide)⟩
    intro hc
    obtain ⟨l, hl, hc⟩ := List.mem_flatMap.mp hc
    obtain hc | hc := List.mem_append.mp hc
    · exact absurd (hhead l hl _ hc) (by decide)
    · exact absurd hc (by decide)
  · rw [Markdown.Native.splitLogicalLines_texts, hdocument,
      splitlines_lines fun l hl => Markdown.Native.oneLine_iff.mp (hhead l hl)]
    simp [hrest]
  · have hlast : (Markdown.renderMarkdownDocument floats items body).getLast? = some '\n' := by
      have hassoc : rest = ('\n' :: body.toList.rdropWhile (· = '\n')) ++ ['\n'] := rfl
      rw [hdocument, hassoc, ← List.append_assoc, List.getLast?_concat]
    have hfront : ∀ c ∈ '\n' :: body.toList.rdropWhile (· = '\n'), isPythonLineBreak c = true → c = '\n' :=
      fun c hc => hrestLines c (List.mem_append_left _ hc)
    have hjoined : ['\n'].intercalate (splitlines rest) = '\n' :: body.toList.rdropWhile (· = '\n') :=
      intercalate_splitlines hfront
    unfold bodyOf
    simp only
    rw [hjoined, if_pos ⟨hlast, List.cons_ne_nil _ _⟩]
    rfl

/-- The body of a document that is analyzed. -/
theorem RenderedOver.analyzed {lines : List (List Char)} {body text : List Char} (h : RenderedOver lines body text)
    {analysis : Markdown.Native.DocumentAnalysis} (hanalysis : Markdown.Native.analyzeDocument text = .ok analysis) :
    analysis.body = '\n' :: (body.rdropWhile (· = '\n') ++ ['\n']) := by
  have hparts := h.block.analyze
  rw [hanalysis] at hparts
  cases hstate : Markdown.Native.parseLinesFrom ⟨[], [], none⟩ lines with
  | error e =>
    rw [hstate] at hparts
    cases hparts
  | ok s =>
    rw [hstate] at hparts
    exact (Prod.ext_iff.mp (Prod.ext_iff.mp (Except.ok.inj hparts)).2).2.trans h.body

theorem byteLength_renderDocument_le (fields : JsonObject φ) (body : String) :
    Markdown.Native.byteLength (renderDocument env str fields body) ≤
      Markdown.Native.byteLength (renderDocument env str fields "") + Markdown.Native.byteLength body.toList := by
  obtain ⟨newlines, hsplit⟩ := List.rdropWhile_prefix (· = '\n') body.toList
  have hfront := congrArg Markdown.Native.byteLength hsplit
  rw [Markdown.Native.byteLength_append] at hfront
  have hempty : ("" : String).toList.rdropWhile (· = '\n') = [] := rfl
  unfold renderDocument Markdown.renderMarkdownDocument
  simp only [hempty, Markdown.Native.byteLength_append, Markdown.Native.byteLength_cons, List.nil_append]
  omega

/-- A document of writable fields is read as these fields, with a line break before the text. -/
theorem parseMarkdownDocument_rendered (hstr : ∀ value, OneLineText (str value)) (h : WritableFields fields)
    (hsettled : SettledFields str fields) {body : String} (hbody : LineFeeds body.toList)
    (hsize : Markdown.Native.byteLength (renderDocument env str fields body) ≤ Markdown.Native.maxDocumentBytes) :
    Markdown.parseMarkdownDocument env.floats (universalNewlines (renderDocument env str fields body)) =
      .ok ⟨renderedMapping str fields, String.ofList ('\n' :: (body.toList.rdropWhile (· = '\n') ++ ['\n']))⟩ := by
  obtain ⟨frontmatter, hitems, hdash, htexts⟩ := renderedMapping_exact hstr h
  have hlines : ∀ l ∈ renderedLines env.floats frontmatter.items, OneLine l := by
    intro l hl
    obtain ⟨item, hitem, hl⟩ := List.mem_flatMap.mp hl
    exact Markdown.renderedLine_oneLine (frontmatter.keys item hitem) (frontmatter.exact item hitem) (htexts item hitem) l hl
  have hrender : renderDocument env str fields body =
      Markdown.renderMarkdownDocument env.floats frontmatter.items body := by
    rw [hitems]
    rfl
  have hrendered : Markdown.Renderable frontmatter.items := by
    refine ⟨fun item hitem text htext => ⟨htexts item hitem text htext, hsettled item (hitems ▸ hitem) text htext⟩, ?_⟩
    refine (List.pairwise_of_forall_mem_list fun item _ next hnext _ => ?_).isChain
    exact hdash next hnext
  obtain ⟨document, hparse, hsame⟩ := Markdown.roundTrips_of_renderable env.floats frontmatter body hrendered
    (by rw [hitems]; exact hsize)
  have hover := renderedOver_render hlines hbody
  obtain ⟨analysis, hanalysis, hread⟩ := parseMarkdownDocument_body hparse
  rw [hrender, universalNewlines_eq_self hover.noReturn, hparse]
  congr 1
  cases document
  simp only at hsame hread
  rw [hsame, hread, hitems, hover.analyzed hanalysis]

/-- A list that was written among the fields is read as a list with as many items. -/
theorem noteIndexFromFile_list (hstr : ∀ value, OneLineText (str value)) (h : WritableFields fields) {name : String}
    (hname : Untouched φ name) {items : List (JsonValue φ)} (hitems : fields.get name = .list items) {path body now : String}
    {note : ObsidianNote φ} (hread : noteIndexFromFile env path ⟨renderDocument env str fields body, now⟩ = .ok (some note)) :
    ∃ read, note.frontmatter.get name = .list read ∧ read.length = items.length := by
  obtain ⟨document, hparse, noteType, hfrontmatter⟩ := noteIndexFromFile_frontmatter hread
  have hwritten := parseMarkdownDocument_written hstr h hparse
  have hlookup : Keyed.lookup Prod.fst name fields = some (name, .list items) := by
    unfold JsonObject.get at hitems
    cases hfound : Keyed.lookup Prod.fst name fields with
    | none =>
      rw [hfound] at hitems
      cases hitems
    | some field =>
      rw [hfound] at hitems
      obtain ⟨-, rfl⟩ := Keyed.lookup_mem hfound
      exact congrArg some (Prod.ext rfl hitems)
  have htype : "alexandria_type" ≠ name := by
    rintro rfl
    exact hname.saved (by simp [savedFields])
  obtain ⟨read, hmem, hlength⟩ : ∃ read, (name, JsonValue.list read) ∈ frontmatterJson document.frontmatter ∧
      read.length = items.length := by
    refine ⟨items.map fun item => jsonScalar (scalarFromTag env.floats
      (Markdown.Native.parseScalar (Markdown.yamlScalar env.floats (frontmatterScalar str item)))), ?_, List.length_map _⟩
    refine List.mem_map.mpr
      ⟨(name, valueFromTag env.floats (reread env.floats (frontmatterValue str (.list items)))), ?_, ?_⟩
    · rw [hwritten]
      exact List.mem_map.mpr ⟨_, (Keyed.lookup_mem hlookup).1, rfl⟩
    · simp [frontmatterValue, reread, valueFromTag]
  have hkeys : (frontmatterJson document.frontmatter).map Prod.fst = fields.map Prod.fst := by
    rw [hwritten]
    simp only [frontmatterJson, List.map_map]
    rfl
  have hget : (frontmatterJson document.frontmatter).get name = .list read := by
    unfold JsonObject.get
    rw [(Keyed.lookup_eq_some (hkeys ▸ h.distinct)).mpr ⟨hmem, rfl⟩]
    rfl
  refine ⟨read, ?_, hlength⟩
  have htyped : ((frontmatterJson document.frontmatter).set "alexandria_type" (.str noteType.value)).get name =
      .list read := by
    rw [JsonObject.get_set, if_neg htype, hget]
  obtain hfrontmatter | ⟨identity, hfrontmatter⟩ := hfrontmatter
  · rw [hfrontmatter, htyped]
  · rw [hfrontmatter, JsonObject.get_erase, if_neg hname.provenance,
      JsonObject.get_update_of_notMem (hname.identity identity), htyped]

end Written

end Alexandria.Notes
