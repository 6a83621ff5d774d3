import Alexandria.Notes.BodyReadBack
import Alexandria.Reconciliation.ObsidianGateway

/-! # Claims and references in the vault

Claims and references are lists of mappings, which the frontmatter has as texts: a reader finds no mapping in what the
file yields, so validation refuses every list that is not empty and the readers answer with an empty tuple. What is
merged is merged into nothing, whatever was merged before.
-/

namespace Alexandria.Reconciliation
set_option autoImplicit false
open Text
open Markdown.Native (oneLine_of_all)
open Notes (JsonValue JsonObject AuthoritativeNote FlatValue OneLineText LineText Writable WritableFields LinePayload writable_of_parts
  lineValue_ofText lineValue_ofTexts)

variable {φ : Type}

/-! ## Readers of flat values -/

theorem validated_flat {α : Type} {validate : JsonObject φ → Option α} {items : List (JsonValue φ)}
    (h : ∀ item ∈ items, item.isObject = false) : (validated validate items).getD [] = [] := by
  cases items with
  | nil => rfl
  | cons item items =>
    have hitem := h item List.mem_cons_self
    have hnone : validated validate (item :: items) = none := by
      unfold validated
      rw [List.mapM_cons]
      cases item with
      | object fields => cases hitem
      | null => rfl
      | bool flag => rfl
      | int n => rfl
      | float x => rfl
      | str text => rfl
      | list inner => rfl
    rw [hnone]
    rfl

namespace ObsidianGateway
variable (env : ObsidianEnvironment φ)

/-- The claims that recall reads from the metadata of a Context. -/
def canonicalClaims (fields : JsonObject φ) : List CanonicalClaim :=
  match fields.get "canonical_claims" with
  | .list items => (validated env.validateClaim items).getD []
  | .str text =>
    match env.loadsJson text with
    | some (.list items) => (validated env.validateClaim items).getD []
    | _ => []
  | _ => []

/-- The document that a call writes for a new Context, unless there is one with the same content. -/
def createdDocument (world : VaultWorld φ) (creation : ContextCreation) : Option Notes.SaveDocument :=
  match lifecycleStatus creation.lifecycleStatus, relatedContext env world creation with
  | .ok status, .ok related =>
    Notes.preparedDocument (Notes.prepareSave env.notes env.nested world.vault
      (notePayload env (savePayload creation status related)) none none (env.newId world.writes) (env.clock world.writes))
  | _, _ => none

/-- The note that the document is read back as. -/
def storedContext (world : VaultWorld φ) (creation : ContextCreation) : Option (Notes.ObsidianNote φ) :=
  (createdDocument env world creation).bind fun save =>
    Notes.readBack env.notes save.path save.document (env.clock world.writes)

/-- Merge one tuple of references after the other; `none` when a call raises. -/
def mergeEvidences (world : VaultWorld φ) (contextId : String) : List (List MemorySourceReference) → Option (VaultWorld φ)
  | [] => some world
  | evidence :: evidences =>
    match mergeEvidence env world contextId evidence with
    | (.ok _, after) => mergeEvidences after contextId evidences
    | (.error _, _) => none

theorem sourceRefs_flat {value : JsonValue φ} (h : FlatValue value) : sourceRefs env value = [] := by
  cases value with
  | list items => exact validated_flat (h items rfl)
  | null => rfl
  | bool flag => rfl
  | int n => rfl
  | float x => rfl
  | str text => rfl
  | object fields => rfl

/-- No reference is read from the vault. -/
theorem sourceRefs_read {world : VaultWorld φ} {contextId : String} {found : Notes.AuthoritativeNote φ}
    (h : readContext env world contextId = .ok found) (name : String) :
    sourceRefs env (found.note.frontmatter.get name) = [] := by
  unfold readContext at h
  split at h
  · cases h
  · rename_i noteId hnoteId
    split at h
    · split at h <;> cases h
    · rename_i note hread
      split at h
      · cases h
        obtain ⟨path, file, hfile⟩ := Notes.readNote_source hread
        exact sourceRefs_flat env ((Notes.noteIndexFromFile_flat hfile).get name)
      · cases h

end ObsidianGateway

/-! ## References -/

theorem mergeSourceRefs_eq_nil {existing incoming : List MemorySourceReference} :
    mergeSourceRefs existing incoming = [] ↔ existing = [] ∧ incoming = [] := by
  have hgrows : ∀ (items merged : List MemorySourceReference), merged ≠ [] →
      items.foldl (fun merged item => if item.key ∈ merged.map (·.key) then merged else merged ++ [item]) merged ≠ [] := by
    intro items
    induction items with
    | nil => exact fun merged h => h
    | cons item items ih =>
      intro merged h
      rw [List.foldl_cons]
      apply ih
      split
      · exact h
      · exact List.append_ne_nil_of_right_ne_nil merged (List.cons_ne_nil item [])
  rw [← List.append_eq_nil_iff]
  unfold mergeSourceRefs
  constructor
  · intro h
    cases hall : existing ++ incoming with
    | nil => rfl
    | cons item items =>
      rw [hall, List.foldl_cons] at h
      exact absurd h (hgrows items _ (by simp))
  · intro h
    rw [h]
    rfl

/-! ## The texts of a candidate -/

/-- What the gateway adds to a frontmatter is one line, and so is the text of a nested value. -/
structure LinesKept (env : ObsidianEnvironment φ) : Prop where
  notes : Notes.KeepsLines env.notes
  nested : ∀ value, OneLineText (env.nested value)
  isoformat : ∀ instant, OneLineText (env.isoformat instant)
  clock : ∀ n, OneLineText (env.clock n)

/-- The texts of a candidate that stand in the frontmatter as they are. -/
structure LineCreation (creation : ContextCreation) : Prop where
  candidateId : creation.candidate.candidateId ≠ "" ∧ OneLineText creation.candidate.candidateId
  title : OneLineText creation.candidate.title
  tags : ∀ tag ∈ creation.candidate.tags, OneLineText tag
  project : LineText creation.candidate.identity.project
  workspaceId : LineText creation.candidate.identity.workspaceId
  agentId : LineText creation.candidate.identity.agentId
  userId : LineText creation.candidate.identity.userId
  sessionId : LineText creation.candidate.identity.sessionId
  detailPaths : ∀ ref ∈ creation.candidate.sourceRefs, OneLineText ref.detailPath
  conflictSetIds : ∀ id ∈ creation.conflictSetIds, OneLineText id
  supersedesContextId : LineText creation.supersedesContextId

section Written
open ObsidianGateway (frontmatterFields notePayload)
variable {env : ObsidianEnvironment φ} {creation : ContextCreation} {status : String} {related : Option VaultNote}

theorem memoryReconciliation_line : OneLineText "memory-reconciliation" := oneLine_of_all (by decide)

theorem lifecycleStatuses_line : (lifecycleStatuses.all fun status =>
    status.toList.all fun c => !Markdown.Native.isLineBreak c) = true := by decide

theorem lifecycleStatus_line {value status : String} (h : lifecycleStatus value = .ok status) : OneLineText status := by
  have hmem : status ∈ lifecycleStatuses := by
    unfold lifecycleStatus at h
    simp only at h
    split at h
    · rename_i hcontains
      rw [← Except.ok.inj h]
      exact List.contains_iff_mem.mp hcontains
    · cases h
  exact oneLine_of_all (List.all_eq_true.mp lifecycleStatuses_line status hmem)

theorem contextNoteId_line {contextId : Option String} (h : LineText contextId) : LineText (contextId.bind contextNoteId) := by
  intro noteId hnoteId
  obtain ⟨text, htext, hid⟩ := Option.bind_eq_some_iff.mp hnoteId
  unfold contextNoteId at hid
  split at hid
  · rename_i hopens
    simp only at hid
    split at hid
    · cases hid
    · rw [← Option.some.inj hid]
      apply Notes.oneLineText_strip
      unfold withoutStart
      rw [if_pos hopens]
      exact Notes.oneLineText_ofList (h text htext) fun c hc => List.mem_of_mem_drop hc
  · cases hid

theorem lineValue_dumped {α : Type} (dump : α → JsonObject φ) (values : List α) : Notes.LineValue (dumped dump values) := by
  intro item hitem
  obtain ⟨value, -, rfl⟩ := List.mem_map.mp hitem
  trivial

theorem relationField_name {relation : MemoryRelationType} {field : String}
    (h : relationFrontmatterField relation = some field) :
    Notes.isFieldName field = true ∧ field ≠ "provenance" ∧ field ≠ "canonical_claims" := by
  cases relation <;> cases h <;> decide

theorem candidateFrontmatter_none (creation : ContextCreation) : (candidateFrontmatter creation none).related = none := by
  unfold candidateFrontmatter
  cases creation.relation.bind relationFrontmatterField <;> rfl

/-- A relation is one more field, or another value of one. -/
theorem frontmatterFields_related (env : ObsidianEnvironment φ) (creation : ContextCreation) (related : Option VaultNote) :
    frontmatterFields env (candidateFrontmatter creation related) =
        frontmatterFields env (candidateFrontmatter creation none) ∨
      ∃ relation field mapping, relationFrontmatterField relation = some field ∧
        frontmatterFields env (candidateFrontmatter creation related) =
          (frontmatterFields env (candidateFrontmatter creation none)).set field (.list [.object mapping]) := by
  cases hrelated : (candidateFrontmatter creation related).related with
  | none =>
    left
    unfold frontmatterFields
    rw [hrelated, candidateFrontmatter_none]
    rfl
  | some found =>
    right
    obtain ⟨field, noteId, path⟩ := found
    obtain ⟨name, hname, hfound⟩ := Option.bind_eq_some_iff.mp hrelated
    obtain ⟨relation, -, hfield⟩ := Option.bind_eq_some_iff.mp hname
    obtain ⟨other, -, heq⟩ := Option.map_eq_some_iff.mp hfound
    obtain ⟨rfl, -⟩ := Prod.ext_iff.mp heq
    refine ⟨relation, name, [("id", .str noteId), ("path", .str path), ("relation", .str name)], hfield, ?_⟩
    unfold frontmatterFields
    rw [hrelated, candidateFrontmatter_none]
    rfl

theorem frontmatterFields_claims (env : ObsidianEnvironment φ) (creation : ContextCreation) (related : Option VaultNote) :
    (frontmatterFields env (candidateFrontmatter creation related)).get "canonical_claims" =
        dumped env.dumpClaim creation.candidate.canonicalClaims ∧
      (frontmatterFields env (candidateFrontmatter creation related)).has "canonical_claims" = true := by
  have hbase : (frontmatterFields env (candidateFrontmatter creation none)).get "canonical_claims" =
        dumped env.dumpClaim creation.candidate.canonicalClaims ∧
      (frontmatterFields env (candidateFrontmatter creation none)).has "canonical_claims" = true := by
    unfold frontmatterFields candidateFrontmatter
    cases creation.relation.bind relationFrontmatterField <;> exact ⟨rfl, rfl⟩
  obtain hsame | ⟨relation, field, mapping, hfield, hset⟩ := frontmatterFields_related env creation related
  · rw [hsame]
    exact hbase
  · rw [hset, JsonObject.get_set, if_neg (relationField_name hfield).2.2, JsonObject.has_set, hbase.2, Bool.or_true]
    exact ⟨hbase.1, rfl⟩

theorem frontmatterFields_writable (henv : LinesKept env) (hcreation : LineCreation creation) :
    WritableFields (frontmatterFields env (candidateFrontmatter creation related)) := by
  have hinstant : ∀ instant : Option Instant, LineText (instant.map env.isoformat) := by
    intro instant text htext
    obtain ⟨at_, -, rfl⟩ := Option.map_eq_some_iff.mp htext
    exact henv.isoformat at_
  have hpaths : ∀ path ∈ creation.candidate.sourceRefs.map (·.detailPath), OneLineText path := by
    intro path hpath
    obtain ⟨ref, href, rfl⟩ := List.mem_map.mp hpath
    exact hcreation.detailPaths ref href
  have hbase : WritableFields (frontmatterFields env (candidateFrontmatter creation none)) := by
    unfold frontmatterFields
    rw [candidateFrontmatter_none]
    refine ⟨writable_of_parts ?_ ?_, ?_⟩
    · simp only [List.map_cons, List.map_nil]
      decide
    · simp only [candidateFrontmatter, List.map_cons, List.map_nil, List.forall_mem_cons, List.not_mem_nil,
        false_implies, implies_true, and_true]
      exact ⟨Notes.scope_line _, Notes.scope_line _, lineValue_ofText hcreation.project,
        lineValue_ofText hcreation.workspaceId, lineValue_ofText hcreation.agentId, lineValue_ofText hcreation.userId,
        lineValue_ofText hcreation.sessionId, memoryReconciliation_line, oneLine_of_all (by decide),
        lineValue_ofTexts hpaths, lineValue_dumped _ _, lineValue_dumped _ _, oneLine_of_all (by decide),
        henv.isoformat _, lineValue_ofText (hinstant _), lineValue_ofText (hinstant _), lineValue_ofText (hinstant _),
        hcreation.candidateId.2, lineValue_ofTexts hcreation.conflictSetIds,
        lineValue_ofText (contextNoteId_line hcreation.supersedesContextId)⟩
    · simp only [List.map_cons, List.map_nil]
      decide
  obtain hsame | ⟨relation, field, mapping, hfield, hset⟩ := frontmatterFields_related env creation related
  · rw [hsame]
    exact hbase
  · obtain ⟨hname, hflat, -⟩ := relationField_name hfield
    rw [hset]
    refine hbase.set hname hflat ?_
    intro item hitem
    rw [List.mem_singleton.mp hitem]
    trivial

end Written

/-! ## Claims in the vault -/

section Stored
variable {env : ObsidianEnvironment φ} {world : VaultWorld φ} {creation : ContextCreation} {note : Notes.ObsidianNote φ}

theorem canonicalClaims_untouched : Notes.Untouched φ "canonical_claims" where
  saved := by decide
  collections := by decide
  flags := by decide
  identity := by
    intro identity
    simp [Notes.normalizedContextFrontmatter]
  provenance := by decide
  contentHash := by decide
  secret := by decide
  audit := by decide

theorem notePayload_line (henv : LinesKept env) (hcreation : LineCreation creation) {status : String}
    (hstatus : OneLineText status) (related : Option VaultNote) :
    LinePayload (ObsidianGateway.notePayload env (savePayload creation status related)) where
  fields := frontmatterFields_writable henv hcreation
  title := hcreation.title
  tags := hcreation.tags
  status := hstatus
  project := hcreation.project
  source := memoryReconciliation_line
  noteId := ⟨creation.candidate.candidateId, rfl, hcreation.candidateId⟩

/-- The note has a list where the candidate has its claims, and no mapping in it. -/
theorem storedContext_claims (henv : LinesKept env) (hcreation : LineCreation creation)
    (hstored : ObsidianGateway.storedContext env world creation = some note) :
    ∃ items, note.frontmatter.get "canonical_claims" = .list items ∧ ∀ item ∈ items, item.isObject = false := by
  obtain ⟨save, hsave, hread⟩ := Option.bind_eq_some_iff.mp hstored
  unfold ObsidianGateway.createdDocument at hsave
  split at hsave
  · rename_i status related hstatus hrelated
    unfold Notes.preparedDocument at hsave
    split at hsave
    · rename_i prepared hprepared
      cases hsave
      obtain ⟨fields, body, hdocument, hwritable, huntouched⟩ := Notes.prepareSave_written henv.notes
        (notePayload_line henv hcreation (lifecycleStatus_line hstatus) related) rfl (henv.clock world.writes) hprepared
      obtain ⟨hclaims, hhas⟩ := frontmatterFields_claims env creation related
      obtain ⟨warnings, hredacted⟩ := huntouched "canonical_claims" canonicalClaims_untouched hhas
      have hpayload : (ObsidianGateway.notePayload env (savePayload creation status related)).frontmatter.get
          "canonical_claims" = dumped env.dumpClaim creation.candidate.canonicalClaims := hclaims
      rw [hpayload, dumped, Notes.redactedJson] at hredacted
      obtain ⟨sequence, -, heq⟩ := Keyed.map_eq_ok hredacted
      have hfield : fields.get "canonical_claims" = .list sequence.1 := (Prod.ext_iff.mp heq).1.symm
      have hfile := Notes.readBack_ok hread
      have hflat := Notes.noteIndexFromFile_flat hfile
      rw [hdocument] at hfile
      obtain ⟨items, hitems, -⟩ := Notes.noteIndexFromFile_list henv.nested hwritable canonicalClaims_untouched hfield
        hfile
      exact ⟨items, hitems, hflat.get "canonical_claims" items hitems⟩
    · cases hsave
  · cases hsave

/-- Recall reads no claim from the note. -/
theorem canonicalClaims_stored (henv : LinesKept env) (hcreation : LineCreation creation)
    (hstored : ObsidianGateway.storedContext env world creation = some note) :
    ObsidianGateway.canonicalClaims env note.frontmatter = [] := by
  obtain ⟨items, hitems, hflat⟩ := storedContext_claims henv hcreation hstored
  unfold ObsidianGateway.canonicalClaims
  rw [hitems]
  exact validated_flat hflat

end Stored

/-! ## A Context and the references merged into it -/

/-- The Context that is read after a creation and a sequence of merges; `none` when a call raises. -/
def ObsidianGateway.mergedContext (env : ObsidianEnvironment φ) (world : VaultWorld φ) (creation : ContextCreation)
    (evidences : List (List MemorySourceReference)) : Option (AuthoritativeNote φ) :=
  match createContext env world creation with
  | (.error _, _) => none
  | (.ok contextId, after) =>
    (mergeEvidences env after contextId evidences).bind fun merged => (readContext env merged contextId).toOption

section Survive
variable {env : ObsidianEnvironment φ} {world : VaultWorld φ} {creation : ContextCreation}
  {evidences : List (List MemorySourceReference)}

theorem mergedContext_sourceRefs {found : AuthoritativeNote φ}
    (h : ObsidianGateway.mergedContext env world creation evidences = some found) :
    ObsidianGateway.sourceRefs env (found.note.frontmatter.get "memory_source_refs") = [] := by
  unfold ObsidianGateway.mergedContext at h
  split at h
  · cases h
  · rename_i contextId after hcreate
    obtain ⟨merged, -, hread⟩ := Option.bind_eq_some_iff.mp h
    cases hfound : ObsidianGateway.readContext env merged contextId with
    | error failure =>
      rw [hfound] at hread
      cases hread
    | ok read =>
      rw [hfound] at hread
      cases hread
      exact ObsidianGateway.sourceRefs_read env hfound _

/-- Claims and references are read back from the vault exactly when there are none. -/
theorem claims_and_evidence_survive_iff (env : ObsidianEnvironment φ) (henv : LinesKept env) (world : VaultWorld φ)
    (creation : ContextCreation) (hcreation : LineCreation creation) (note : Notes.ObsidianNote φ)
    (hstored : ObsidianGateway.storedContext env world creation = some note)
    (evidences : List (List MemorySourceReference)) (found : AuthoritativeNote φ)
    (hfound : ObsidianGateway.mergedContext env world creation evidences = some found) :
    (ObsidianGateway.canonicalClaims env note.frontmatter = creation.candidate.canonicalClaims ∧
      ObsidianGateway.sourceRefs env (found.note.frontmatter.get "memory_source_refs") =
        mergeSourceRefs [] (creation.candidate.sourceRefs ++ evidences.flatten)) ↔
    creation.candidate.canonicalClaims = [] ∧ creation.candidate.sourceRefs = [] ∧ ∀ evidence ∈ evidences, evidence = [] := by
  rw [canonicalClaims_stored henv hcreation hstored, mergedContext_sourceRefs hfound, eq_comm, eq_comm (a := []),
    mergeSourceRefs_eq_nil, List.append_eq_nil_iff, List.flatten_eq_nil_iff]
  constructor
  · rintro ⟨hclaims, -, hrefs, hmerged⟩
    exact ⟨hclaims, hrefs, hmerged⟩
  · rintro ⟨hclaims, hrefs, hmerged⟩
    exact ⟨hclaims, rfl, hrefs, hmerged⟩

end Survive

/-! ## A candidate with a claim -/

def sampleCreation : ContextCreation := ⟨sampleCandidate, "active", none, [], none, none⟩

theorem sampleClaimText_printable : Notes.isPrintable sampleClaimText = true := by decide +kernel

set_option maxRecDepth 4000 in
theorem sampleObsidian_line : LinesKept sampleObsidian where
  notes := by
    refine ⟨⟨fun _ h => h, ?_⟩, ?_, ?_⟩
    · intro text warning hwarning
      cases hwarning
    · intro text c hc
      have hplain : ∀ c ∈ Notes.hexDigits, Markdown.Native.isLineBreak c = false := Text.forall_mem_of_all (by decide)
      have hdigit : Notes.hexDigits.getD (text.length % 16) '0' ∈ Notes.hexDigits := by
        have hlt : text.length % 16 < Notes.hexDigits.length := Nat.mod_lt _ (by decide)
        rw [List.getD_eq_getElem?_getD, List.getElem?_eq_getElem hlt]
        exact List.getElem_mem hlt
      simp only [sampleObsidian, Notes.plainEnvironment, String.toList_ofList, List.mem_append, List.mem_replicate,
        List.mem_singleton] at hc
      obtain ⟨-, rfl⟩ | rfl := hc
      · decide
      · exact hplain _ hdigit
    · intro raw text htext
      simp only [sampleObsidian] at htext
      split at htext
      · cases htext
      · rename_i hbreak
        cases htext
        intro c hc
        rw [Bool.not_eq_true, List.any_eq_false] at hbreak
        exact Bool.eq_false_of_not_eq_true (hbreak c hc)
  nested := fun _ => (Notes.oneLine_of_printable sampleClaimText_printable).1
  isoformat := by
    have hline : OneLineText "2026-01-01T00:00:00+00:00" := oneLine_of_all (by decide)
    exact fun _ => hline
  clock := by
    have hline : OneLineText "2026-01-01T00:00:00Z" := oneLine_of_all (by decide)
    exact fun _ => hline

theorem sampleCreation_line : LineCreation sampleCreation where
  candidateId := by
    refine ⟨by decide, oneLine_of_all (by decide)⟩
  title := oneLine_of_all (by decide)
  tags := by simp [sampleCreation, sampleCandidate]
  project := by
    intro text htext
    cases htext
    exact oneLine_of_all (by decide)
  workspaceId := by simp [LineText, sampleCreation, sampleCandidate]
  agentId := by simp [LineText, sampleCreation, sampleCandidate]
  userId := by simp [LineText, sampleCreation, sampleCandidate]
  sessionId := by simp [LineText, sampleCreation, sampleCandidate]
  detailPaths := by simp [sampleCreation, sampleCandidate]
  conflictSetIds := by simp [sampleCreation]
  supersedesContextId := by simp [LineText, sampleCreation]

/-- A Context that an empty vault takes is found under its identifier. -/
theorem mergedContext_created {env : ObsidianEnvironment φ} {writes : ℕ} {creation : ContextCreation}
    {save : Notes.SaveDocument} {note : Notes.ObsidianNote φ}
    (hdocument : ObsidianGateway.createdDocument env ⟨Notes.Vault.empty, writes⟩ creation = some save)
    (hread : Notes.noteIndexFromFile env.notes save.path ⟨save.document, env.clock writes⟩ = .ok (some note))
    (hunlinked : save.supersedesContextId = none) (hcontext : note.alexandriaType = .context)
    (hid : contextNoteId (qualifiedContextId note.noteId) = some note.noteId) :
    (ObsidianGateway.mergedContext env ⟨Notes.Vault.empty, writes⟩ creation []).isSome = true := by
  obtain ⟨hpath, -⟩ := Notes.noteIndexFromFile_some hread
  unfold ObsidianGateway.createdDocument at hdocument
  split at hdocument
  · rename_i status related hstatus hrelated
    unfold Notes.preparedDocument at hdocument
    split at hdocument
    · rename_i prepared hprepared
      cases hdocument
      have hsaved : Notes.saveNote env.notes env.nested Notes.Vault.empty
          (ObsidianGateway.notePayload env (savePayload creation status related)) (env.newId writes) (env.clock writes) =
            (.ok note, ⟨[(save.path, ⟨save.document, env.clock writes⟩)], [note]⟩) := by
        unfold Notes.saveNote Notes.saveNoteSerialized
        simp only [hprepared, Notes.persistAndIndex, hread, hunlinked]
        rfl
      have hfound : Notes.readNote env.notes ⟨[(save.path, ⟨save.document, env.clock writes⟩)], [note]⟩ note.noteId =
          .ok ⟨note, env.notes.sameObject note.frontmatter note.frontmatter⟩ := by
        simp [Notes.readNote, Notes.Vault.getById, Notes.Vault.file, Keyed.lookup, hpath, hread, Notes.authoritativeNote]
      unfold ObsidianGateway.mergedContext ObsidianGateway.createContext
      simp only [hstatus, hrelated, ObsidianGateway.savedContext, hsaved, Except.map, ObsidianGateway.mergeEvidences,
        Option.bind_some, ObsidianGateway.readContext, hid, hfound, hcontext, if_true]
      rfl
    · cases hdocument
  · cases hdocument

def samplePayload : Notes.ObsidianSaveNote Unit := ObsidianGateway.notePayload sampleObsidian (savePayload sampleCreation "active" none)

/-- The frontmatter that is written for the candidate. -/
def sampleFields : JsonObject Unit :=
  [("scope", .str "PROJECT"), ("visibility", .str "PROJECT"), ("project", .str "alexandria"), ("workspace_id", .null),
    ("agent_id", .null), ("user_id", .null), ("session_id", .null), ("source_actor_id", .str "memory-reconciliation"),
    ("source_actor_type", .str "SYSTEM"), ("evidence_refs", .list []), ("memory_source_refs", .list []),
    ("canonical_claims", dumped dumpPositiveClaim sampleCandidate.canonicalClaims), ("context_kind", .str "MEMORY"),
    ("recorded_at", .str "2026-01-01T00:00:00+00:00"), ("observed_at", .null), ("valid_from", .null), ("valid_to", .null),
    ("reconciliation_candidate_id", .str "candidate-1"), ("conflict_set_ids", .list []), ("supersedes_context_id", .null),
    ("alexandria_type", .str "context"), ("id", .str "candidate-1"), ("title", .str "service port"), ("tags", .list []),
    ("status", .str "active"), ("created_at", .str "2026-01-01T00:00:00Z"), ("updated_at", .str "2026-01-01T00:00:00Z"),
    ("source", .str "memory-reconciliation"), ("source_run_id", .null), ("external_run_id", .null),
    ("artifact_refs", .list []), ("confidence", .null),
    ("content_hash", .str (Notes.plainEnvironment.hashText samplePayload.body)), ("version", .int 1),
    ("superseded_by_context_id", .null), ("memory_function", .null)]

/-- The Context that the file of the candidate holds. -/
def sampleIdentity : Notes.ObsidianContextIdentity where
  scope := .project
  identity := ⟨some "alexandria", none, none, none, none⟩
  visibility := .project
  status := .active
  provenance := ⟨some "memory-reconciliation", some .system, none, none, [], [], none⟩
  contentHash := Notes.plainEnvironment.hashText samplePayload.body
  version := 1
  supersedesContextId := none
  supersededByContextId := none
  contextKind := .memory
  memoryFunction := none
  createdAt := some "2026-01-01T00:00:00Z"
  updatedAt := some "2026-01-01T00:00:00Z"
  recordedAt := some "2026-01-01T00:00:00+00:00"
  observedAt := none
  validFrom := none
  validTo := none
  reconciliationCandidateId := some "candidate-1"
  conflictSetIds := []

def isLineScalar : JsonValue Unit → Bool
  | .str text => text.toList.all fun c => !Markdown.Native.isLineBreak c
  | .float _ => false
  | _ => true

def isLineValue : JsonValue Unit → Bool
  | .list items => items.all isLineScalar
  | value => isLineScalar value

theorem lineScalar_of_check {value : JsonValue Unit} (h : isLineScalar value = true) : Notes.LineScalar value := by
  cases value with
  | str text => exact oneLine_of_all h
  | float x => cases h
  | null => trivial
  | bool flag => trivial
  | int n => trivial
  | list items => trivial
  | object fields => trivial

theorem lineValue_of_check {value : JsonValue Unit} (h : isLineValue value = true) : Notes.LineValue value := by
  cases value with
  | list items => exact fun item hitem => lineScalar_of_check (List.all_eq_true.mp h item hitem)
  | str text => exact oneLine_of_all h
  | float x => cases h
  | null => trivial
  | bool flag => trivial
  | int n => trivial
  | object fields => trivial

/-- The texts of a value have no blank at an end. -/
def isTrimmed : Markdown.FrontmatterScalar Unit → Bool
  | .str text => Markdown.Native.trimmed text.toList = text.toList
  | _ => true

def isPrintableScalar : JsonValue Unit → Bool
  | .str text => Notes.isPrintable text
  | .float _ => false
  | _ => true

def isPrintableValue : JsonValue Unit → Bool
  | .list items => items.all isPrintableScalar
  | value => isPrintableScalar value

theorem lineScalar_of_printable {value : JsonValue Unit} (h : isPrintableScalar value = true) : isLineScalar value = true := by
  cases value with
  | str text =>
    refine List.all_eq_true.mpr fun c hc => ?_
    rw [(Notes.oneLine_of_printable h).1 c hc]
    rfl
  | float x => cases h
  | null => rfl
  | bool flag => rfl
  | int n => rfl
  | list items => rfl
  | object inner => rfl

theorem lineValue_of_printable {value : JsonValue Unit} (h : isPrintableValue value = true) : isLineValue value = true := by
  have hscalar : ∀ scalar, isPrintableScalar scalar = true → isLineScalar scalar = true := fun _ => lineScalar_of_printable
  cases value with
  | list items => exact List.all_eq_true.mpr fun item hitem => hscalar item (List.all_eq_true.mp h item hitem)
  | null => rfl
  | bool flag => rfl
  | int n => rfl
  | float x => cases h
  | str text => exact hscalar (.str text) h
  | object inner => rfl

theorem trimmed_of_printableScalar {str : Notes.NestedText Unit} (hnested : ∀ value, Notes.isPrintable (str value) = true)
    {value : JsonValue Unit} (h : isPrintableScalar value = true) : isTrimmed (Notes.frontmatterScalar str value) = true := by
  cases value with
  | str text => exact decide_eq_true (Notes.trimmed_of_printable h)
  | float x => rfl
  | null => rfl
  | bool flag => rfl
  | int n => rfl
  | list items => exact decide_eq_true (Notes.trimmed_of_printable (hnested _))
  | object inner => exact decide_eq_true (Notes.trimmed_of_printable (hnested _))

theorem trimmed_of_printableValue {str : Notes.NestedText Unit} (hnested : ∀ value, Notes.isPrintable (str value) = true)
    {value : JsonValue Unit} (h : isPrintableValue value = true) :
    (Notes.frontmatterValue str value).scalars.all isTrimmed = true := by
  have hscalar : ∀ scalar, isPrintableScalar scalar = true → isTrimmed (Notes.frontmatterScalar str scalar) = true :=
    fun _ => trimmed_of_printableScalar hnested
  refine List.all_eq_true.mpr fun x hx => ?_
  cases value with
  | list items =>
    obtain ⟨item, hitem, rfl⟩ := List.mem_map.mp hx
    exact hscalar item (List.all_eq_true.mp h item hitem)
  | null => exact List.mem_singleton.mp hx ▸ hscalar .null h
  | bool flag => exact List.mem_singleton.mp hx ▸ hscalar (.bool flag) h
  | int n => exact List.mem_singleton.mp hx ▸ hscalar (.int n) h
  | float x => cases h
  | str text => exact List.mem_singleton.mp hx ▸ hscalar (.str text) h
  | object inner => exact List.mem_singleton.mp hx ▸ hscalar (.object inner) h

/-- What the rendered fields of a Context are checked for, by evaluation; `hash` is that of the body below them. -/
structure FieldChecks (env : ObsidianEnvironment Unit) (fields : JsonObject Unit) (noteId hash : String)
    (identity : Notes.ObsidianContextIdentity) : Prop where
  written : fields.all (fun field => Notes.isFieldName field.1 && !(field.1 == "provenance") && isLineValue field.2) = true ∧
    (Notes.renderedMapping env.nested fields).all (fun item => item.2.scalars.all isTrimmed) = true ∧
    Markdown.Native.byteLength (Notes.renderDocument env.notes env.nested fields "") ≤ 4096
  names : (fields.map Prod.fst).Nodup
  identified : Notes.noteTypeFromFrontmatter env.notes (Notes.frontmatterJson (Notes.renderedMapping env.nested fields)) =
      .ok (some .context) ∧
    (Notes.frontmatterText (Notes.frontmatterJson (Notes.renderedMapping env.nested fields)) "id").filter (· ≠ "") =
      some noteId ∧
    Notes.contextIdentityFromFrontmatter env.notes.text
      ((Notes.frontmatterJson (Notes.renderedMapping env.nested fields)).set "alexandria_type" (.str "context"))
      (Notes.frontmatterText (Notes.frontmatterJson (Notes.renderedMapping env.nested fields)) "project")
      (((Notes.frontmatterText (Notes.frontmatterJson (Notes.renderedMapping env.nested fields)) "status").filter
        (· ≠ "")).getD "active") hash = .ok identity

/-- The Context that the fields above a body are read as. -/
def contextOfFields (env : ObsidianEnvironment Unit) (fields : JsonObject Unit) (noteId : String)
    (identity : Notes.ObsidianContextIdentity) (body path now : String) : Notes.ObsidianNote Unit where
  noteId := noteId
  relativePath := path
  alexandriaType := .context
  title := env.notes.titleFromParts (Notes.renderedMapping env.nested fields) (String.ofList (Notes.reread body.toList)) path
  status := identity.status.value
  tags := Notes.frontmatterList (Notes.frontmatterJson (Notes.renderedMapping env.nested fields)) "tags"
  project := identity.identity.project
  source := Notes.frontmatterText (Notes.frontmatterJson (Notes.renderedMapping env.nested fields)) "source"
  contentHash := identity.contentHash
  sourceHash := env.notes.hashText
    (String.ofList (Notes.universalNewlines (Notes.renderDocument env.notes env.nested fields body)))
  frontmatter := (((Notes.frontmatterJson (Notes.renderedMapping env.nested fields)).set "alexandria_type"
    (.str "context")).update (Notes.normalizedContextFrontmatter identity)).erase "provenance"
  body := String.ofList (Notes.reread body.toList)
  modifiedAt := now

namespace FieldChecks
variable {env : ObsidianEnvironment Unit} {fields : JsonObject Unit} {noteId hash : String}
  {identity : Notes.ObsidianContextIdentity}

/-- The check of the rendered fields by the bytes of their texts. -/
theorem written_of_printable (hnested : ∀ value, Notes.isPrintable (env.nested value) = true)
    (hfields : fields.all (fun field => Notes.isLowerName field.1 && !(field.1 == "provenance") && isPrintableValue field.2) =
      true)
    (hsize : ((Notes.renderedMapping env.nested fields).map (Notes.itemSize env.notes.floats)).sum + 11 ≤ 4096) :
    fields.all (fun field => Notes.isFieldName field.1 && !(field.1 == "provenance") && isLineValue field.2) = true ∧
      (Notes.renderedMapping env.nested fields).all (fun item => item.2.scalars.all isTrimmed) = true ∧
      Markdown.Native.byteLength (Notes.renderDocument env.notes env.nested fields "") ≤ 4096 := by
  have hvalues : ∀ field ∈ fields, Notes.isFieldName field.1 = true ∧ (!(field.1 == "provenance")) = true ∧
      isPrintableValue field.2 = true := by
    intro field hmem
    have hfield := List.all_eq_true.mp hfields field hmem
    simp only [Bool.and_eq_true] at hfield
    exact ⟨Notes.isFieldName_of_lower hfield.1.1, hfield.1.2, hfield.2⟩
  refine ⟨List.all_eq_true.mpr fun field hmem => ?_, List.all_eq_true.mpr fun item hitem => ?_,
    (Notes.byteLength_renderMarkdownDocument_le _ _).trans hsize⟩
  · obtain ⟨hname, hflat, hvalue⟩ := hvalues field hmem
    simp only [Bool.and_eq_true]
    exact ⟨⟨hname, hflat⟩, lineValue_of_printable hvalue⟩
  · obtain ⟨field, hmem, rfl⟩ := List.mem_map.mp hitem
    exact trimmed_of_printableValue hnested (hvalues field hmem).2.2

theorem writable (h : FieldChecks env fields noteId hash identity) : WritableFields fields := by
  refine ⟨fun field hmem => ?_, h.names⟩
  have hfield := List.all_eq_true.mp h.written.1 field hmem
  simp only [Bool.and_eq_true, Bool.not_eq_true', beq_eq_false_iff_ne] at hfield
  exact ⟨hfield.1.1, hfield.1.2, lineValue_of_check hfield.2⟩

theorem settled (h : FieldChecks env fields noteId hash identity) : Notes.SettledFields env.nested fields := by
  intro item hitem text htext _
  have hitem := List.all_eq_true.mp (List.all_eq_true.mp h.written.2.1 item hitem) _ htext
  exact of_decide_eq_true hitem

/-- The fields above a body are read as its Context. -/
theorem read (h : FieldChecks env fields noteId hash identity) (hnested : ∀ value, OneLineText (env.nested value))
    (hsafe : ∀ text, env.notes.containsSecretField text = false) {body : String} (hbody : Text.LineFeeds body.toList)
    (hlength : Markdown.Native.byteLength body.toList ≤ 4096)
    (hhash : Notes.contextContentHash env.notes (String.ofList (Notes.reread body.toList)) = hash) (path now : String) :
    Notes.noteIndexFromFile env.notes path ⟨Notes.renderDocument env.notes env.nested fields body, now⟩ =
      .ok (some (contextOfFields env fields noteId identity body path now)) := by
  have hsize : Markdown.Native.byteLength (Notes.renderDocument env.notes env.nested fields body) ≤
      Markdown.Native.maxDocumentBytes := by
    have hmax : 4096 + 4096 ≤ Markdown.Native.maxDocumentBytes := by decide
    exact ((Notes.byteLength_renderDocument_le fields body).trans (Nat.add_le_add h.written.2.2 hlength)).trans hmax
  have hparsed := Notes.parseMarkdownDocument_rendered hnested h.writable h.settled hbody hsize
  obtain ⟨htype, hid, hidentity⟩ := h.identified
  rw [← hhash] at hidentity
  exact Notes.noteIndexFromFile_context (hsafe _) hparsed rfl htype hid hidentity

end FieldChecks

/-- The candidate is saved as its file, and the file reads back as its Context. -/
theorem sampleCreation_file :
    Notes.prepareSave sampleObsidian.notes sampleObsidian.nested Notes.Vault.empty samplePayload none none "note"
        (sampleObsidian.clock 0) =
      .ok (.document ⟨"candidate-1", "Alexandria/Contexts/Projects/service port.md",
        Notes.renderDocument sampleObsidian.notes sampleObsidian.nested sampleFields samplePayload.body, none⟩) ∧
      ∃ note, Notes.noteIndexFromFile sampleObsidian.notes "Alexandria/Contexts/Projects/service port.md"
          ⟨Notes.renderDocument sampleObsidian.notes sampleObsidian.nested sampleFields samplePayload.body,
            sampleObsidian.clock 0⟩ = .ok (some note) ∧ note.noteId = "candidate-1" ∧ note.alexandriaType = .context := by
  constructor
  · have hredacted : Notes.redactedFrontmatter sampleObsidian.notes.redactSecretText samplePayload.frontmatter =
        .ok (samplePayload.frontmatter, []) := Notes.redactedFrontmatter_clear (fun _ => rfl) (by decide +kernel)
    have htarget : Notes.saveTarget sampleObsidian.notes Notes.Vault.empty samplePayload (pythonStrip samplePayload.title)
        "note" = .ok ("candidate-1", "Alexandria/Contexts/Projects/service port.md") := by decide +kernel
    have hpolicy : (Notes.desiredFrontmatter sampleObsidian.notes samplePayload none none "candidate-1"
        (pythonStrip samplePayload.title) [] (sampleObsidian.clock 0) >>= fun fields => Notes.applyContextSavePolicy
          sampleObsidian.notes Notes.Vault.empty samplePayload "candidate-1" fields samplePayload.body) =
        .ok ⟨sampleFields, none, none⟩ := by decide +kernel
    exact Notes.preparedDocument_context (by decide +kernel) rfl rfl hredacted htarget (fun _ _ => rfl) hpolicy rfl
  · have hfields : FieldChecks sampleObsidian sampleFields "candidate-1"
        (Notes.plainEnvironment.hashText samplePayload.body) sampleIdentity :=
      ⟨FieldChecks.written_of_printable (fun _ => sampleClaimText_printable) (by decide +kernel) (by decide +kernel),
        by decide +kernel, by decide +kernel⟩
    have hbody : Text.LineFeeds samplePayload.body.toList := Text.lineFeeds_of_all (by decide +kernel)
    exact ⟨_, hfields.read sampleObsidian_line.nested (fun _ => rfl) hbody (by decide +kernel) (by decide +kernel) _ _,
      rfl, rfl⟩

theorem sampleCreation_document : ObsidianGateway.createdDocument sampleObsidian ⟨Notes.Vault.empty, 0⟩ sampleCreation =
    some ⟨"candidate-1", "Alexandria/Contexts/Projects/service port.md",
      Notes.renderDocument sampleObsidian.notes sampleObsidian.nested sampleFields samplePayload.body, none⟩ := by
  have hstatus : lifecycleStatus sampleCreation.lifecycleStatus = .ok "active" := by decide
  have hrelated : ObsidianGateway.relatedContext sampleObsidian ⟨Notes.Vault.empty, 0⟩ sampleCreation = .ok none := rfl
  unfold ObsidianGateway.createdDocument
  rw [hstatus, hrelated]
  exact congrArg Notes.preparedDocument sampleCreation_file.1

/-- The candidate is written, and its Context is found. -/
theorem sampleCreation_stored :
    (ObsidianGateway.storedContext sampleObsidian ⟨Notes.Vault.empty, 0⟩ sampleCreation).isSome = true ∧
      (ObsidianGateway.mergedContext sampleObsidian ⟨Notes.Vault.empty, 0⟩ sampleCreation []).isSome = true := by
  obtain ⟨note, hread, hid, hcontext⟩ := sampleCreation_file.2
  constructor
  · unfold ObsidianGateway.storedContext
    rw [sampleCreation_document, Option.bind_some]
    unfold Notes.readBack
    rw [hread]
    rfl
  · have hqualified : contextNoteId (qualifiedContextId note.noteId) = some note.noteId := by
      rw [hid]
      decide
    exact mergedContext_created sampleCreation_document hread rfl hcontext hqualified

theorem claims_and_evidence_survive_iff_sample :
    ∃ note found, ObsidianGateway.storedContext sampleObsidian ⟨Notes.Vault.empty, 0⟩ sampleCreation = some note ∧
      ObsidianGateway.mergedContext sampleObsidian ⟨Notes.Vault.empty, 0⟩ sampleCreation [] = some found ∧
      ((ObsidianGateway.canonicalClaims sampleObsidian note.frontmatter = sampleCandidate.canonicalClaims ∧
        ObsidianGateway.sourceRefs sampleObsidian (found.note.frontmatter.get "memory_source_refs") =
          mergeSourceRefs [] (sampleCandidate.sourceRefs ++ [].flatten)) ↔
      sampleCandidate.canonicalClaims = [] ∧ sampleCandidate.sourceRefs = [] ∧
        ∀ evidence ∈ ([] : List (List MemorySourceReference)), evidence = []) := by
  obtain ⟨hstored, hmerged⟩ := sampleCreation_stored
  obtain ⟨note, hnote⟩ := Option.isSome_iff_exists.mp hstored
  obtain ⟨found, hfound⟩ := Option.isSome_iff_exists.mp hmerged
  exact ⟨note, found, hnote, hfound, claims_and_evidence_survive_iff sampleObsidian sampleObsidian_line
    ⟨Notes.Vault.empty, 0⟩ sampleCreation sampleCreation_line note hnote [] found hfound⟩

/-- A candidate whose claim recall does not read. -/
theorem claim_lost_in_vault :
    ∃ note, ObsidianGateway.storedContext sampleObsidian ⟨Notes.Vault.empty, 0⟩ sampleCreation = some note ∧
      ObsidianGateway.canonicalClaims sampleObsidian note.frontmatter ≠ sampleCandidate.canonicalClaims := by
  obtain ⟨note, hnote⟩ := Option.isSome_iff_exists.mp sampleCreation_stored.1
  refine ⟨note, hnote, ?_⟩
  rw [canonicalClaims_stored sampleObsidian_line sampleCreation_line hnote]
  decide

end Alexandria.Reconciliation
