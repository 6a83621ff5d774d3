import Alexandria.Graph.OutsideText

/-! # Relating two notes

One relation is added to the frontmatter of the source, through an explicit write that merges it with the frontmatter that is
there. The body is the one that was read, without the line break that the renderer put before it.
-/

namespace Alexandria.Graph
set_option autoImplicit false
open Notes (JsonValue JsonObject ObsidianNote ObsidianWriteNote)

variable {φ : Type}

/-- `relation_field` -/
def relationField : ObsidianRelationType → Except String String
  | .cites => .ok "source_ref_links"
  | .wikilink => .error ("relation cannot be mutated by relate: " ++ ObsidianRelationType.wikilink.value)
  | relation => .ok relation.value

/-- `relation_values` -/
def relationValues : JsonValue φ → List (JsonValue φ)
  | .null => []
  | .list items => items
  | value => [value]

structure RelateRequest (φ : Type) where
  target : ObsidianNote φ
  relation : ObsidianRelationType
  expectedSourceHash : Option String
  operationSource : String

section Relate
variable (structured : StructuredText φ)

/-- `relation_present`, for the field of the relation. -/
def relationPresent (source : ObsidianNote φ) (request : RelateRequest φ) (field : String) : Bool :=
  (relationTargets structured (source.frontmatter.get field)).any fun item =>
    (item.noteId = some request.target.noteId || item.path = some request.target.relativePath) &&
      (item.relation = none || item.relation = some request.relation)

/-- The values of the field with the new relation, unless it is there. -/
def relatedValues (source : ObsidianNote φ) (request : RelateRequest φ) (field : String) : List (JsonValue φ) :=
  let values := relationValues (source.frontmatter.get field)
  if relationPresent structured source request field then values
  else
    values ++ [.object [("id", .str request.target.noteId), ("path", .str request.target.relativePath),
      ("relation", .str request.relation.value)]]

/-- `relate`, up to the write that it asks for. -/
def relateCommand (source : ObsidianNote φ) (request : RelateRequest φ) : Except String (ObsidianWriteNote φ) :=
  if source.noteId = request.target.noteId then .error ("source and target must differ: " ++ source.noteId)
  else if request.expectedSourceHash.any (· ≠ source.contentHash) then
    .error (Notes.writeConflict "expected source content hash does not match the current note" source.relativePath)
  else
    (relationField request.relation).map fun field =>
      { note :=
          { title := source.title
            body := String.ofList (withoutLead source.body.toList)
            alexandriaType := source.alexandriaType
            noteId := some source.noteId
            relativePath := some source.relativePath
            tags := source.tags
            status := source.status
            project := source.project
            source := (source.source.filter (· ≠ "")).getD request.operationSource
            frontmatter := [(field, .list (relatedValues structured source request field))]
            expectedContentHash := some source.contentHash }
        writeMode := .update
        matchBy := .path
        frontmatterMode := .merge
        providedFields := none }

end Relate

theorem relationField_plain {relation : ObsidianRelationType} {field : String} (h : relationField relation = .ok field) :
    Notes.isFieldName field = true ∧ field ≠ "provenance" := by
  cases relation <;> cases h <;> exact ⟨by decide, by decide⟩

theorem relationValues_unbroken {value : JsonValue φ} (h : Notes.UnbrokenValue value) :
    ∀ item ∈ relationValues value, Notes.UnbrokenItem item := by
  intro item hitem
  cases value with
  | null => cases hitem
  | list items => exact h item hitem
  | bool flag => exact List.mem_singleton.mp hitem ▸ h
  | int n => exact List.mem_singleton.mp hitem ▸ h
  | float x => exact List.mem_singleton.mp hitem ▸ h
  | str text => exact List.mem_singleton.mp hitem ▸ h
  | object fields => exact List.mem_singleton.mp hitem ▸ h

theorem relatedValues_unbroken {structured : StructuredText φ} {source : ObsidianNote φ} {request : RelateRequest φ}
    (h : Notes.UnbrokenFields source.frontmatter) (field : String) :
    ∀ item ∈ relatedValues structured source request field, Notes.UnbrokenItem item := by
  intro item hitem
  unfold relatedValues at hitem
  simp only at hitem
  split at hitem
  · exact relationValues_unbroken (h.get field) item hitem
  · obtain hitem | hitem := List.mem_append.mp hitem
    · exact relationValues_unbroken (h.get field) item hitem
    · rw [List.mem_singleton.mp hitem]
      trivial

/-- An update by path goes to the row at the path, which has the identifier that was asked for. -/
theorem resolveWriteTarget_update {env : Notes.NoteEnvironment φ} {vault : Notes.Vault φ} {command : ObsidianWriteNote φ}
    {payload : Notes.ObsidianSaveNote φ} {existing : Option (ObsidianNote φ)} {noteId : String}
    (hmode : command.writeMode = .update) (hmatch : command.matchBy = .path) (hprovided : command.providedFields = none)
    (hid : command.note.noteId = some noteId)
    (h : Notes.resolveWriteTarget env vault command = .ok (payload, existing)) :
    ∃ target ∈ vault.index, existing = some target ∧
      payload = { command.note with noteId := some noteId, relativePath := some target.relativePath } := by
  unfold Notes.resolveWriteTarget at h
  simp only [hmode, hmatch, hprovided, hid] at h
  split at h
  · cases h
  · split at h
    · cases h
    · split at h
      · cases h
      · obtain ⟨path, -, h⟩ := Keyed.bind_eq_ok h
        split at h
        · cases h
        · simp only [reduceCtorEq, if_false] at h
          split at h
          · rename_i target htarget
            split at h
            · cases h
            · rename_i hagrees
              cases h
              have hsame : target.noteId = noteId := by
                rw [not_or] at hagrees
                simpa using hagrees.2
              refine ⟨target, (Keyed.lookup_mem htarget).1, rfl, ?_⟩
              rw [hsame]
              rfl
          · cases h

end Alexandria.Graph
