import Alexandria.Notes.ReadBack

/-! # Saves that break no line

What is read from a file has no line break in its names and texts. The steps of a save put none there: redaction, the
normalization of known fields, the merge with the fields of the note that is there, the history and the policy of Contexts. So
the frontmatter that is written closes where it should, and what follows it is read back as the body.
-/

namespace Alexandria.Notes
set_option autoImplicit false
open Text
open Markdown.Native (OneLine oneLine_of_all delimiter)

variable {φ : Type}

/-! ## Redaction -/

section Redaction
variable {redactSecretText : String → SecretRedaction}

theorem redactedJson_item (h : RedactsLines redactSecretText) {value : JsonValue φ} {redacted : JsonValue φ × List String}
    (hvalue : UnbrokenItem value) (hok : redactedJson redactSecretText value = .ok redacted) : UnbrokenItem redacted.1 := by
  cases value with
  | str text =>
    rw [redactedJson] at hok
    split at hok
    · cases hok
    · cases hok
      exact h.content text hvalue
  | list items =>
    rw [redactedJson] at hok
    obtain ⟨sequence, -, rfl⟩ := Keyed.map_eq_ok hok
    trivial
  | object fields =>
    rw [redactedJson] at hok
    obtain ⟨mapping, -, rfl⟩ := Keyed.map_eq_ok hok
    trivial
  | null => cases hok; trivial
  | bool value => cases hok; trivial
  | int value => cases hok; trivial
  | float value => cases hok; trivial

theorem redactedSequence_items (h : RedactsLines redactSecretText) {items : List (JsonValue φ)}
    {redacted : List (JsonValue φ) × List String} (hitems : ∀ item ∈ items, UnbrokenItem item)
    (hok : redactedSequence redactSecretText items = .ok redacted) : ∀ item ∈ redacted.1, UnbrokenItem item := by
  induction items generalizing redacted with
  | nil =>
    cases hok
    intro item hitem
    cases hitem
  | cons item items ih =>
    rw [redactedSequence] at hok
    obtain ⟨first, hfirst, hmapped⟩ := Keyed.bind_eq_ok hok
    obtain ⟨rest, hrest, rfl⟩ := Keyed.map_eq_ok hmapped
    intro other hother
    obtain rfl | hother := List.mem_cons.mp hother
    · exact redactedJson_item h (hitems item List.mem_cons_self) hfirst
    · exact ih (fun i hi => hitems i (List.mem_cons_of_mem item hi)) hrest other hother

theorem redactedJson_unbroken (h : RedactsLines redactSecretText) {value : JsonValue φ} {redacted : JsonValue φ × List String}
    (hvalue : UnbrokenValue value) (hok : redactedJson redactSecretText value = .ok redacted) :
    UnbrokenValue redacted.1 ∧ redacted.1.isObject = value.isObject := by
  cases value with
  | list items =>
    rw [redactedJson] at hok
    obtain ⟨sequence, hsequence, rfl⟩ := Keyed.map_eq_ok hok
    exact ⟨redactedSequence_items h hvalue hsequence, rfl⟩
  | str text =>
    rw [redactedJson] at hok
    split at hok
    · cases hok
    · cases hok
      exact ⟨h.content text hvalue, rfl⟩
  | object fields =>
    rw [redactedJson] at hok
    obtain ⟨mapping, -, rfl⟩ := Keyed.map_eq_ok hok
    exact ⟨trivial, rfl⟩
  | null => cases hok; exact ⟨trivial, rfl⟩
  | bool value => cases hok; exact ⟨trivial, rfl⟩
  | int value => cases hok; exact ⟨trivial, rfl⟩
  | float value => cases hok; exact ⟨trivial, rfl⟩

theorem redactedMapping_unbroken (h : RedactsLines redactSecretText) {fields : JsonObject φ}
    {redacted : JsonObject φ × List String} (hfields : UnbrokenFields fields)
    (hok : redactedMapping redactSecretText fields = .ok redacted) : UnbrokenFields redacted.1 := by
  induction fields generalizing redacted with
  | nil =>
    cases hok
    exact hfields
  | cons field fields ih =>
    obtain ⟨fieldName, item⟩ := field
    have hfirst := hfields (fieldName, item) List.mem_cons_self
    have hlater : UnbrokenFields fields := fun field hmem => hfields field (List.mem_cons_of_mem _ hmem)
    rw [redactedMapping] at hok
    split at hok
    · obtain ⟨rest, hrest, rfl⟩ := Keyed.map_eq_ok hok
      intro other hother
      obtain rfl | hother := List.mem_cons.mp hother
      · exact ⟨hfirst.name, fun _ => rfl, trivial⟩
      · exact ih hlater hrest other hother
    · split at hok
      · obtain ⟨rest, hrest, rfl⟩ := Keyed.map_eq_ok hok
        exact fun other hother => ih hlater hrest other hother
      · obtain ⟨first, hvalue, hmapped⟩ := Keyed.bind_eq_ok hok
        obtain ⟨rest, hrest, rfl⟩ := Keyed.map_eq_ok hmapped
        obtain ⟨hunbroken, hobject⟩ := redactedJson_unbroken h hfirst.value hvalue
        intro other hother
        obtain rfl | hother := List.mem_cons.mp hother
        · exact ⟨hfirst.name, fun hname => hobject.trans (hfirst.flat hname), hunbroken⟩
        · exact ih hlater hrest other hother

theorem UnbrokenFields.redacted (h : RedactsLines redactSecretText) {fields : JsonObject φ}
    {redacted : JsonObject φ × List String} (hfields : UnbrokenFields fields)
    (hok : redactedFrontmatter redactSecretText fields = .ok redacted) :
    UnbrokenFields redacted.1 ∧ ∀ warning ∈ redacted.2, OneLineText warning := by
  obtain ⟨mapping, hmapping, rfl⟩ := Keyed.map_eq_ok hok
  have hunbroken := redactedMapping_unbroken h hfields hmapping
  refine ⟨hunbroken, ?_⟩
  intro warning hwarning
  exact redactedMapping_warnings h fields mapping hmapping warning (Reconciliation.mem_dedupe.mp hwarning)

end Redaction

/-! ## Known fields -/

theorem UnbrokenFields.normalizeFields {normalize : JsonValue φ → Except String (JsonValue φ)}
    (hnormalize : ∀ value normalized, UnbrokenValue value → normalize value = .ok normalized →
      UnbrokenValue normalized ∧ normalized.isObject = false)
    {names : List String} {fields normalized : JsonObject φ} (h : UnbrokenFields fields)
    (hok : names.foldlM (normalizeField normalize) fields = .ok normalized) : UnbrokenFields normalized := by
  induction names generalizing fields with
  | nil =>
    cases hok
    exact h
  | cons name names ih =>
    rw [List.foldlM_cons] at hok
    obtain ⟨next, hnext, hrest⟩ := Keyed.bind_eq_ok hok
    refine ih ?_ hrest
    unfold normalizeField at hnext
    split at hnext
    · rename_i hhas
      obtain ⟨value, hvalue, rfl⟩ := Keyed.map_eq_ok hnext
      obtain ⟨hunbroken, hobject⟩ := hnormalize _ _ (h.get name) hvalue
      exact h.set ⟨h.name_of_has hhas, fun _ => hobject, hunbroken⟩
    · cases hnext
      exact h

theorem UnbrokenFields.normalizeKnown {fields normalized : JsonObject φ} (h : UnbrokenFields fields)
    (hok : normalizeKnownFrontmatterMetadata fields = .ok normalized) : UnbrokenFields normalized := by
  obtain ⟨collected, hcollected, hbooleans⟩ := Keyed.bind_eq_ok hok
  refine (h.normalizeFields ?_ hcollected).normalizeFields ?_ hbooleans
  · intro value result hvalue hresult
    obtain ⟨texts, htexts, rfl⟩ := Keyed.map_eq_ok hresult
    exact ⟨(lineValue_ofTexts (normalizeStringCollection_line hvalue htexts)).unbroken, rfl⟩
  · intro value result _ hresult
    obtain ⟨flag, -, rfl⟩ := Keyed.map_eq_ok hresult
    exact ⟨trivial, rfl⟩

/-! ## The frontmatter of a save -/

/-- The texts of a request that go to the frontmatter, apart from the fields that it brings. -/
structure PayloadLines (payload : ObsidianSaveNote φ) : Prop where
  title : OneLineText payload.title
  tags : ∀ tag ∈ payload.tags, OneLineText tag
  status : OneLineText payload.status
  project : LineText payload.project
  source : OneLineText payload.source

/-- The texts of a note that was read from a file. -/
structure UnbrokenNote (note : ObsidianNote φ) : Prop where
  fields : UnbrokenFields note.frontmatter
  tags : ∀ tag ∈ note.tags, OneLineText tag
  status : OneLineText note.status
  project : LineText note.project
  source : LineText note.source

section Save
variable {env : NoteEnvironment φ} {payload : ObsidianSaveNote φ} {fields result : JsonObject φ}

theorem unbroken_str {text : String} (h : OneLineText text) : UnbrokenValue (.str text : JsonValue φ) := h

theorem unbroken_orNow {value : JsonValue φ} {now : String} (h : UnbrokenValue value) (hnow : OneLineText now) :
    UnbrokenValue (orNow env value now) := by
  unfold orNow
  split
  · exact h
  · exact hnow

theorem unbroken_getOr {name : String} {default : JsonValue φ} (h : UnbrokenFields fields) (hdefault : UnbrokenValue default) :
    UnbrokenValue (getOr fields name default) := by
  unfold getOr
  split
  · exact h.get name
  · exact hdefault

/-- Plain names and unbroken values, none of them the provenance. -/
theorem unbroken_of_parts {fields : JsonObject φ}
    (hnames : ((fields.map Prod.fst).all fun name => isFieldName name && decide (name ≠ "provenance")) = true)
    (hvalues : ∀ value ∈ fields.map Prod.snd, UnbrokenValue value) : UnbrokenFields fields := by
  intro field hfield
  have hname := List.all_eq_true.mp hnames field.1 (List.mem_map_of_mem hfield)
  obtain ⟨hplain, hflat⟩ := (Bool.and_eq_true _ _).mp hname
  exact ⟨(isFieldName_validKey hplain).1.oneLine, fun heq => absurd heq (of_decide_eq_true hflat),
    hvalues field.2 (List.mem_map_of_mem hfield)⟩

theorem frontmatterForSave_unbroken {noteId title now : String} {warnings : List String} (h : UnbrokenFields fields)
    (hpayload : PayloadLines payload) (hnoteId : OneLineText noteId) (htitle : OneLineText title) (hnow : OneLineText now)
    (hwarnings : ∀ warning ∈ warnings, OneLineText warning)
    (hok : frontmatterForSave env payload fields noteId title warnings now = .ok result) : UnbrokenFields result := by
  unfold frontmatterForSave at hok
  simp only at hok
  have hupdated : UnbrokenFields (fields.update
      [("alexandria_type", .str payload.alexandriaType.value), ("id", .str noteId), ("title", .str title),
        ("tags", .ofTexts payload.tags), ("status", .str payload.status),
        ("created_at", orNow env (fields.get "created_at") now), ("updated_at", orNow env (fields.get "updated_at") now),
        ("source", .str payload.source)]) := by
    apply h.update
    apply unbroken_of_parts
    · simp only [List.map_cons, List.map_nil]
      decide
    · simp only [List.map_cons, List.map_nil, List.forall_mem_cons, List.not_mem_nil, false_implies, implies_true, and_true]
      exact ⟨noteType_line _, hnoteId, htitle, (lineValue_ofTexts hpayload.tags).unbroken, hpayload.status,
        unbroken_orNow (h.get _) hnow, unbroken_orNow (h.get _) hnow, hpayload.source⟩
  generalize fields.update _ = updated at hok hupdated
  have hplain : ∀ {name : String} {value : JsonValue φ}, isFieldName name = true → name ≠ "provenance" → UnbrokenValue value →
      UnbrokenField (name, value) :=
    fun hname hne hvalue => ⟨(isFieldName_validKey hname).1.oneLine, fun heq => absurd heq hne, hvalue⟩
  have hwarned : ∀ projected : JsonObject φ, UnbrokenFields projected → UnbrokenFields
      (if warnings = [] then projected else projected.set "redaction_warnings" (.ofTexts warnings)) := by
    intro projected hprojected
    split
    · exact hprojected
    · exact hprojected.set (hplain (by decide) (by decide) (lineValue_ofTexts hwarnings).unbroken)
  refine UnbrokenFields.normalizeKnown (hwarned _ ?_) hok
  cases hproject : payload.project with
  | none => exact hupdated
  | some project => exact hupdated.set (hplain (by decide) (by decide) (hpayload.project project hproject))

theorem copyFields_unbroken {names : List String} {source target : JsonObject φ} (hsource : UnbrokenFields source)
    (htarget : UnbrokenFields target) : UnbrokenFields (copyFields names source target) := by
  unfold copyFields
  induction names generalizing target with
  | nil => exact htarget
  | cons name names ih =>
    rw [List.foldl_cons]
    refine ih ?_
    split
    · rename_i hhas
      exact htarget.set (hsource.field_of_has hhas)
    · exact htarget

theorem sourceOr_unbroken {existing : ObsidianNote φ} (h : UnbrokenNote existing) {other : JsonValue φ}
    (hother : UnbrokenValue other) : UnbrokenValue (sourceOr existing other) := by
  unfold sourceOr
  split
  · rename_i source hsource
    exact h.source source (Option.mem_filter_iff.mp hsource).1
  · exact hother

/-- The fields of the request over those of the note that is there. -/
theorem mergedFrontmatter_unbroken (hhash : ∀ text, OneLineText (env.hashText text)) (hfields : UnbrokenFields payload.frontmatter)
    (hsource : OneLineText payload.source) {existing : Option (ObsidianNote φ)} (hexisting : ∀ note ∈ existing, UnbrokenNote note ∧ OneLineText note.modifiedAt)
    (mode : ObsidianFrontmatterMode) : UnbrokenFields (mergedFrontmatter env payload existing mode) := by
  cases existing with
  | none => exact hfields
  | some existing =>
    obtain ⟨hnote, hmodified⟩ := hexisting existing rfl
    refine UnbrokenFields.update (copyFields_unbroken hnote.fields (UnbrokenFields.update ?_ hfields)) (unbroken_of_parts ?_ ?_)
    · cases mode with
      | merge => exact hnote.fields
      | replaceUserFields => exact fun field hfield => hnote.fields field (List.mem_filter.mp hfield).1
    · simp only [List.map_cons, List.map_nil]
      decide
    · simp only [List.map_cons, List.map_nil, List.forall_mem_cons, List.not_mem_nil, false_implies, implies_true, and_true]
      exact ⟨unbroken_getOr hnote.fields hmodified,
        unbroken_getOr hnote.fields (sourceOr_unbroken hnote (unbroken_str hsource)),
        unbroken_getOr hnote.fields (unbroken_getOr hnote.fields (hhash existing.body))⟩

theorem applyWriteHistory_unbroken (hhash : ∀ text, OneLineText (env.hashText text)) (h : UnbrokenFields fields)
    {existing : Option (ObsidianNote φ)} (hexisting : ∀ note ∈ existing, UnbrokenNote note ∧ OneLineText note.modifiedAt) (body : String) {now : String}
    (hnow : OneLineText now) : UnbrokenFields (applyWriteHistory env fields existing body now) := by
  unfold applyWriteHistory
  have hunknown : OneLineText "unknown" := oneLine_of_all (by decide)
  have hmodified : UnbrokenValue (if (fields.get "source").truthy env.isZero then fields.get "source" else .str "unknown") := by
    split
    · exact h.get _
    · exact hunknown
  refine UnbrokenFields.update ?_ ?_
  · cases existing with
    | none =>
      refine h.update (unbroken_of_parts (by simp only [List.map_cons, List.map_nil]; decide) ?_)
      simp only [List.map_cons, List.map_nil, List.forall_mem_cons, List.not_mem_nil, false_implies, implies_true, and_true]
      exact ⟨hnow, h.get _, trivial, hhash body⟩
    | some existing =>
      obtain ⟨hnote, hmodified⟩ := hexisting existing rfl
      refine h.update (unbroken_of_parts (by simp only [List.map_cons, List.map_nil]; decide) ?_)
      simp only [List.map_cons, List.map_nil, List.forall_mem_cons, List.not_mem_nil, false_implies, implies_true, and_true]
      exact ⟨unbroken_getOr hnote.fields hmodified,
        unbroken_getOr hnote.fields (sourceOr_unbroken hnote (h.get _)),
        unbroken_getOr hnote.fields (unbroken_getOr hnote.fields (hhash existing.body)),
        unbroken_getOr hnote.fields (hhash existing.body), trivial⟩
  · refine unbroken_of_parts (by simp only [List.map_cons, List.map_nil]; decide) ?_
    simp only [List.map_cons, List.map_nil, List.forall_mem_cons, List.not_mem_nil, false_implies, implies_true, and_true]
    exact ⟨hnow, hhash body, hmodified⟩

/-- The fields of a note that was read are its texts, and those of its identity. -/
theorem identity_unbroken {platform : TextPlatform} {project : Option String} {status hash : String}
    {identity : ObsidianContextIdentity} (h : UnbrokenFields fields) (htimestamp : ∀ raw, LineText (platform.timestamp raw))
    (hproject : LineText project) (hhash : OneLineText hash)
    (hok : contextIdentityFromFrontmatter platform fields project status hash = .ok identity) :
    UnbrokenFields ((fields.update (normalizedContextFrontmatter identity)).erase "provenance") := by
  have hwritable := normalizedContextFrontmatter_writable (φ := φ) h htimestamp hproject hhash hok
  exact (h.update fun field hfield => (hwritable field hfield).unbroken).erase _

theorem applyContextSavePolicy_unbroken (henv : KeepsLines env) (h : UnbrokenFields fields) (hproject : LineText payload.project)
    {vault : Vault φ} {noteId body : String} {policy : ContextSavePolicyResult φ}
    (hok : applyContextSavePolicy env vault payload noteId fields body = .ok policy) : UnbrokenFields policy.frontmatter := by
  obtain ⟨identity, hidentity, hfrontmatter⟩ := applyContextSavePolicy_frontmatter hok
  rw [hfrontmatter]
  exact identity_unbroken (h.erase _) henv.timestamp hproject (henv.hash _) hidentity

/-- The frontmatter that a save asks for, which the links section is rendered from. -/
def requestedFrontmatter (env : NoteEnvironment φ) (payload : ObsidianSaveNote φ) (existing : Option (ObsidianNote φ))
    (mode : Option ObsidianFrontmatterMode) (noteId now : String) : Except String (JsonObject φ) := do
  let redacted ← redactedFrontmatter env.redactSecretText payload.frontmatter
  desiredFrontmatter env { payload with frontmatter := redacted.1 } existing mode noteId (pythonStrip payload.title)
    ((env.redactSecretText payload.body).warnings ++ redacted.2) now

theorem requestedFrontmatter_of_clear {existing : Option (ObsidianNote φ)} {mode : Option ObsidianFrontmatterMode}
    {noteId now : String}
    (hredacted : redactedFrontmatter env.redactSecretText payload.frontmatter = .ok (payload.frontmatter, []))
    (hclear : (env.redactSecretText payload.body).warnings = []) :
    requestedFrontmatter env payload existing mode noteId now =
      desiredFrontmatter env payload existing mode noteId (pythonStrip payload.title) [] now := by
  unfold requestedFrontmatter
  rw [hredacted, hclear]
  rfl

theorem desiredFrontmatter_unbroken (henv : KeepsLines env) (hpayload : PayloadLines payload)
    (hfields : UnbrokenFields payload.frontmatter) {noteId title now : String} {warnings : List String}
    (hnoteId : OneLineText noteId) (htitle : OneLineText title) (hnow : OneLineText now)
    (hwarnings : ∀ warning ∈ warnings, OneLineText warning) {existing : Option (ObsidianNote φ)}
    (hexisting : ∀ note ∈ existing, UnbrokenNote note ∧ OneLineText note.modifiedAt) {mode : Option ObsidianFrontmatterMode}
    (hok : desiredFrontmatter env payload existing mode noteId title warnings now = .ok result) : UnbrokenFields result := by
  cases mode with
  | none => exact frontmatterForSave_unbroken hfields hpayload hnoteId htitle hnow hwarnings hok
  | some mode =>
    have hmerged := mergedFrontmatter_unbroken henv.hash hfields hpayload.source hexisting mode
    exact frontmatterForSave_unbroken hmerged hpayload hnoteId htitle hnow hwarnings hok

/-- What a save of a note writes: unbroken fields above the body with its section of links. -/
theorem prepareSave_unbroken (henv : KeepsLines env) (hpayload : PayloadLines payload) (hfields : UnbrokenFields payload.frontmatter)
    {noteId : String} (hgiven : payload.noteId = some noteId) (hne : noteId ≠ "") (hline : OneLineText noteId)
    {existing : Option (ObsidianNote φ)} (hexisting : ∀ note ∈ existing, UnbrokenNote note ∧ OneLineText note.modifiedAt)
    {mode : Option ObsidianFrontmatterMode} {str : NestedText φ} {vault : Vault φ} {newId now : String} (hnow : OneLineText now)
    {save : SaveDocument} (hok : prepareSave env str vault payload existing mode newId now = .ok (.document save)) :
    ∃ fields written, requestedFrontmatter env payload existing mode noteId now = .ok fields ∧ UnbrokenFields written ∧
      save.document = renderDocument env str written
        (env.addOrUpdateLinksSection (env.redactSecretText payload.body).redactedContent fields) := by
  unfold prepareSave at hok
  simp only at hok
  split at hok
  · cases hok
  · split at hok
    · cases hok
    · obtain ⟨redacted, hredacted, hok⟩ := Keyed.bind_eq_ok hok
      obtain ⟨target, htarget, hok⟩ := Keyed.bind_eq_ok hok
      obtain ⟨fields, hdesired, hok⟩ := Keyed.bind_eq_ok hok
      obtain rfl := saveTarget_noteId hgiven hne htarget
      obtain ⟨hunbroken, hwarnings⟩ := hfields.redacted henv.redacts hredacted
      have hallWarnings : ∀ warning ∈ (env.redactSecretText payload.body).warnings ++ redacted.2, OneLineText warning := by
        intro warning hwarning
        obtain hwarning | hwarning := List.mem_append.mp hwarning
        · exact henv.redacts.warnings payload.body warning hwarning
        · exact hwarnings warning hwarning
      have hrequest : PayloadLines { payload with frontmatter := redacted.1 } :=
        ⟨hpayload.title, hpayload.tags, hpayload.status, hpayload.project, hpayload.source⟩
      have hfieldsUnbroken : UnbrokenFields fields := desiredFrontmatter_unbroken henv hrequest hunbroken hline
        (oneLineText_strip hpayload.title) hnow hallWarnings hexisting hdesired
      have hrequested : requestedFrontmatter env payload existing mode target.1 now = .ok fields := by
        unfold requestedFrontmatter
        rw [hredacted]
        exact hdesired
      split at hok
      · cases hok
      · generalize hbody : env.addOrUpdateLinksSection (env.redactSecretText payload.body).redactedContent fields = body at hok
        have hdated : UnbrokenFields (if mode.isSome then applyWriteHistory env fields existing body now else fields) := by
          split
          · exact applyWriteHistory_unbroken henv.hash hfieldsUnbroken hexisting body hnow
          · exact hfieldsUnbroken
        split at hok
        · obtain ⟨policy, hpolicy, hok⟩ := Keyed.bind_eq_ok hok
          split at hok
          · cases hok
          · cases hok
            exact ⟨fields, _, hrequested, applyContextSavePolicy_unbroken henv hdated hpayload.project hpolicy, by rw [hbody]⟩
        · cases hok
          exact ⟨fields, _, hrequested, hdated, by rw [hbody]⟩

end Save

end Alexandria.Notes
