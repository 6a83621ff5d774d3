import Alexandria.Reconciliation.Cycle
import Alexandria.Reconciliation.Targets

/-! # Sources of a Compact and their readback

Before an apply the source fence reads every selected and every compared Context; after it the fence reads these again
together with the Contexts that child plans have changed. The Compact takes the hashes of its own sources, which are the
selected Contexts, from the second reading, and it is published only when the two sets have the same size.
-/

namespace Alexandria.Reconciliation
set_option autoImplicit false
open Text

/-! ## Canonical sources -/

inductive ObsidianIndexStatus
  | indexed
  | unindexed
  | stale
  | error
  deriving DecidableEq

/-- The fields of a note that the fence reads; `frontmatter` is its canonical JSON. -/
structure ObsidianNote where
  noteId : String
  relativePath : String
  contentHash : String
  frontmatter : String
  indexStatus : ObsidianIndexStatus

/-- The two authorities a source is read from, `none` where the read raises, and the digests of what is read. -/
structure SourceReader where
  readNote : String → Option ObsidianNote
  getContext : String → Option ContextRecord
  noteRevision : ObsidianNote → String
  contextRevision : ContextRecord → String

structure MemoryCycleSourceSnapshot where
  contextId : String
  canonicalPath : String
  contentHash : String
  sourceRevision : String
  deriving DecidableEq

section Fence
variable (platform : Platform) (reader : SourceReader)

/-- The hash in the metadata as it is, unless it is blank. -/
def contextContentHash (context : ContextRecord) : String :=
  match context.metadata.contentHash with
  | some value => if isBlank isPythonWhitespace value then platform.hashText context.content else value
  | none => platform.hashText context.content

/-- An expected path or hash that is empty is not compared. -/
def readContext (contextId path contentHash : String) : Except String MemoryCycleSourceSnapshot :=
  match reader.getContext contextId with
  | none =>
    .error "MEMORY_CYCLE_SOURCE_UNAVAILABLE: Context source could not be read while preserving durable state"
  | some context =>
    if path ≠ "" ∧ canonicalPath context ≠ path then
      .error "MEMORY_CYCLE_SOURCE_PATH_CHANGED: Context source path changed"
    else if contentHash ≠ "" ∧ contextContentHash platform context ≠ contentHash then
      .error "MEMORY_CYCLE_SOURCE_CONTENT_CHANGED: Context source revision differs from the indexed candidate"
    else .ok ⟨contextId, canonicalPath context, contextContentHash platform context, reader.contextRevision context⟩

def noteIdOf (contextId : String) : String := pythonStrip (withoutStart "obsidian:" contextId)

def noteSnapshot (contextId : String) (note : ObsidianNote) : MemoryCycleSourceSnapshot :=
  ⟨contextId, note.relativePath, note.contentHash, reader.noteRevision note⟩

/-- `_read_one`: the first reading, which compares path and hash with the indexed candidate. -/
def readOne (contextId path contentHash : String) : Except String MemoryCycleSourceSnapshot :=
  if opensWith "obsidian:" contextId then
    if noteIdOf contextId = "" then .error "MEMORY_CYCLE_SOURCE_ID_INVALID: canonical source id is empty"
    else
      match reader.readNote (noteIdOf contextId) with
      | none =>
        .error ("MEMORY_CYCLE_SOURCE_UNAVAILABLE: canonical Markdown could not be read while preserving the durable " ++
          "source")
      | some note =>
        if note.indexStatus ≠ .indexed then
          .error ("MEMORY_CYCLE_SOURCE_INDEX_STALE: canonical Markdown is readable but the indexed projection is not " ++
            "current")
        else if note.relativePath ≠ path then
          .error "MEMORY_CYCLE_SOURCE_PATH_CHANGED: canonical source path changed"
        else if note.contentHash ≠ contentHash then
          .error "MEMORY_CYCLE_SOURCE_CONTENT_CHANGED: canonical source body differs from the indexed candidate"
        else .ok (noteSnapshot reader contextId note)
  else readContext platform reader contextId path contentHash

/-- The second reading takes a note as it is now. -/
def rereadOne (item : MemoryCycleSourceSnapshot) : Except String MemoryCycleSourceSnapshot :=
  if opensWith "obsidian:" item.contextId then
    match reader.readNote (noteIdOf item.contextId) with
    | none =>
      .error "MEMORY_CYCLE_SOURCE_UNAVAILABLE: post-mutation source readback could not verify the canonical note"
    | some note =>
      if note.indexStatus ≠ .indexed then
        .error "MEMORY_CYCLE_SOURCE_INDEX_STALE: post-mutation projection is not current"
      else .ok (noteSnapshot reader item.contextId note)
  else readContext platform reader item.contextId item.canonicalPath item.contentHash

/-! ## The two readings -/

structure SourceRequest where
  contextId : String
  canonicalPath : String
  contentHash : String

def candidatePath (candidate : MemoryRecallCandidate) : String :=
  match candidate.sourceRefs.find? fun sourceRef => !isBlank isPythonWhitespace sourceRef.detailPath with
  | some sourceRef => sourceRef.detailPath
  | none => "context:" ++ candidate.contextId

def previewRequests (item : ExistingMemoryPlanPreview) : List SourceRequest :=
  ⟨item.context.id, canonicalPath item.context, item.contentHash⟩ ::
    item.comparedContexts.map fun candidate => ⟨candidate.contextId, candidatePath candidate, candidate.contentHash⟩

/-- One request for each identifier, the last one that was made, in the order of the identifiers. -/
def sourceRequests (previews : List ExistingMemoryPlanPreview) : List SourceRequest :=
  (Keyed.ofList (·.contextId) (previews.flatMap previewRequests)).insertionSort fun a b => a.contextId ≤ b.contextId

def sortedSnapshots (snapshots : List MemoryCycleSourceSnapshot) : List MemoryCycleSourceSnapshot :=
  snapshots.insertionSort fun a b => a.contextId ≤ b.contextId

def snapshot (previews : List ExistingMemoryPlanPreview) : Except String (List MemoryCycleSourceSnapshot) :=
  ((sourceRequests previews).mapM fun request =>
    readOne platform reader request.contextId request.canonicalPath request.contentHash).map sortedSnapshots

/-- `setdefault` with a source of which nothing is expected. -/
def addAffected (known : List MemoryCycleSourceSnapshot) (contextId : String) : List MemoryCycleSourceSnapshot :=
  if (Keyed.lookup (·.contextId) contextId known).isSome then known else known ++ [⟨contextId, "", "", ""⟩]

def knownSources (sources : List MemoryCycleSourceSnapshot) (extraContextIds : List String) :
    List MemoryCycleSourceSnapshot :=
  extraContextIds.foldl addAffected (Keyed.ofList (·.contextId) sources)

def refresh (sources : List MemoryCycleSourceSnapshot) (extraContextIds : List String) :
    Except String (List MemoryCycleSourceSnapshot) :=
  ((knownSources sources extraContextIds).mapM (rereadOne platform reader)).map sortedSnapshots

end Fence

/-! ## The Compact's sources -/

/-- `compact_payload_for_sources`, on the source references of the payload. -/
def compactSourcesFor (sourceRefs : List MemoryCompactSourceRef) (sources : List MemoryCycleSourceSnapshot) :
    List MemoryCompactSourceRef :=
  let hashes := Keyed.ofList (·.contextId) sources
  sourceRefs.map fun sourceRef =>
    { sourceRef with
      sourceHash := match Keyed.lookup (·.contextId) sourceRef.sourceId hashes with
        | some source => some source.contentHash
        | none => sourceRef.sourceHash }

def compactSourceHashesMatch (sourceRefs : List MemoryCompactSourceRef) (sources : List MemoryCycleSourceSnapshot) :
    Bool :=
  let expected := Keyed.ofList (·.contextId) sources
  decide (sourceRefs.length = expected.length) && sourceRefs.all fun sourceRef =>
    sourceRef.sourceHash == (Keyed.lookup (·.contextId) sourceRef.sourceId expected).map (·.contentHash)

structure MemoryCycleChildOutcome where
  childPlanKey : String
  planId : Option String
  resultId : Option String
  relation : MemoryRelationType
  status : MemoryReconciliationStatus
  requiresReview : Bool
  warnings : List String
  affectedContextIds : List String

def affectedContextIds (outcomes : List MemoryCycleChildOutcome) : List String :=
  dedupe (outcomes.flatMap (·.affectedContextIds))

/-- The readback that a cycle makes before it publishes: the store returns the references it was given. `before` and
`after` answer the readings before and after the child plans. -/
def sourceReadback (platform : Platform) (before after : SourceReader) (previews : List ExistingMemoryPlanPreview)
    (outcomes : List MemoryCycleChildOutcome) : Except String Bool := do
  let admitted ← snapshot platform before previews
  let sources ← refresh platform after admitted (affectedContextIds outcomes)
  return compactSourceHashesMatch (compactSourcesFor (buildCycleFacts previews).sourceRefs sources) sources

/-! ## The identifiers of the readings -/

section Identifiers
variable {platform : Platform} {reader before after : SourceReader} {previews : List ExistingMemoryPlanPreview}
  {outcomes : List MemoryCycleChildOutcome} {sources : List MemoryCycleSourceSnapshot}

theorem readContext_contextId {contextId path contentHash : String} {source : MemoryCycleSourceSnapshot}
    (h : readContext platform reader contextId path contentHash = .ok source) : source.contextId = contextId := by
  unfold readContext at h
  split at h
  · cases h
  · split at h
    · cases h
    · split at h
      · cases h
      · cases h
        rfl

theorem readOne_contextId {contextId path contentHash : String} {source : MemoryCycleSourceSnapshot}
    (h : readOne platform reader contextId path contentHash = .ok source) : source.contextId = contextId := by
  unfold readOne at h
  split at h
  · split at h
    · cases h
    · split at h
      · cases h
      · repeat' split at h
        all_goals cases h
        rfl
  · exact readContext_contextId h

theorem rereadOne_contextId (item source : MemoryCycleSourceSnapshot) (h : rereadOne platform reader item = .ok source) :
    source.contextId = item.contextId := by
  unfold rereadOne at h
  split at h
  · split at h
    · cases h
    · split at h
      · cases h
      · cases h
        rfl
  · exact readContext_contextId h

/-- The Contexts that are read: the selected and the compared ones, and those that child plans have changed. -/
def sourceIds (previews : List ExistingMemoryPlanPreview) (outcomes : List MemoryCycleChildOutcome) : List String :=
  (previews.flatMap fun item => item.context.id :: item.comparedContexts.map (·.contextId)) ++
    outcomes.flatMap (·.affectedContextIds)

theorem previewRequests_ids (item : ExistingMemoryPlanPreview) :
    (previewRequests item).map (·.contextId) = item.context.id :: item.comparedContexts.map (·.contextId) := by
  simp [previewRequests]

/-- The first reading has one source for each selected or compared Context. -/
theorem snapshot_ids (h : snapshot platform reader previews = .ok sources) :
    (sources.map (·.contextId)).Nodup ∧ ∀ id, id ∈ sources.map (·.contextId) ↔
      id ∈ previews.flatMap fun item => item.context.id :: item.comparedContexts.map (·.contextId) := by
  obtain ⟨read, hread, rfl⟩ := Keyed.map_eq_ok h
  have hids : read.map (·.contextId) = (sourceRequests previews).map (·.contextId) :=
    Keyed.map_key_mapM (fun _ _ hone => readOne_contextId hone) hread
  have hperm : ((sortedSnapshots read).map (·.contextId)).Perm
      ((Keyed.ofList (·.contextId) (previews.flatMap previewRequests)).map (·.contextId)) := by
    refine ((List.perm_insertionSort _ _).map _).trans ?_
    rw [hids]
    exact (List.perm_insertionSort _ _).map _
  refine ⟨hperm.nodup_iff.mpr Keyed.nodup_ofList, ?_⟩
  intro id
  rw [hperm.mem_iff, Keyed.mem_key_ofList, List.map_flatMap]
  simp only [previewRequests_ids]

theorem addAffected_ids {known : List MemoryCycleSourceSnapshot} (hnodup : (known.map (·.contextId)).Nodup)
    (contextId : String) : ((addAffected known contextId).map (·.contextId)).Nodup ∧
      ∀ id, id ∈ (addAffected known contextId).map (·.contextId) ↔ id ∈ known.map (·.contextId) ∨ id = contextId := by
  unfold addAffected
  cases hlookup : Keyed.lookup (·.contextId) contextId known with
  | some source =>
    obtain ⟨hmem, hid⟩ := Keyed.lookup_mem hlookup
    refine ⟨hnodup, ?_⟩
    intro id
    constructor
    · exact .inl
    · rintro (hid' | rfl)
      · exact hid'
      · exact List.mem_map.mpr ⟨source, hmem, hid⟩
  | none =>
    have hnew : contextId ∉ known.map (·.contextId) := by
      intro hmem
      obtain ⟨source, hsource, hid⟩ := List.mem_map.mp hmem
      exact Keyed.lookup_eq_none.mp hlookup source hsource hid
    simp only [Option.isSome_none, Bool.false_eq_true, if_false, List.map_append, List.map_cons, List.map_nil]
    refine ⟨hnodup.append (List.nodup_singleton _) (List.disjoint_singleton.mpr hnew), ?_⟩
    simp

theorem foldl_addAffected_ids {known : List MemoryCycleSourceSnapshot} (hnodup : (known.map (·.contextId)).Nodup)
    (extra : List String) : ((extra.foldl addAffected known).map (·.contextId)).Nodup ∧
      ∀ id, id ∈ (extra.foldl addAffected known).map (·.contextId) ↔ id ∈ known.map (·.contextId) ∨ id ∈ extra := by
  induction extra generalizing known with
  | nil => exact ⟨hnodup, by simp⟩
  | cons contextId extra ih =>
    obtain ⟨hnodup', hmem⟩ := addAffected_ids hnodup contextId
    obtain ⟨hfold, hall⟩ := ih hnodup'
    refine ⟨hfold, ?_⟩
    intro id
    rw [List.foldl_cons, hall, hmem, List.mem_cons, or_assoc]

/-- The second reading has one source for each Context that was read before or was changed. -/
theorem refresh_ids {admitted : List MemoryCycleSourceSnapshot} {extra : List String}
    (hnodup : (admitted.map (·.contextId)).Nodup) (h : refresh platform reader admitted extra = .ok sources) :
    (sources.map (·.contextId)).Nodup ∧
      ∀ id, id ∈ sources.map (·.contextId) ↔ id ∈ admitted.map (·.contextId) ∨ id ∈ extra := by
  obtain ⟨read, hread, rfl⟩ := Keyed.map_eq_ok h
  have hids : read.map (·.contextId) = (knownSources admitted extra).map (·.contextId) :=
    Keyed.map_key_mapM rereadOne_contextId hread
  have hperm : ((sortedSnapshots read).map (·.contextId)).Perm (read.map (·.contextId)) :=
    (List.perm_insertionSort _ _).map _
  rw [hids, knownSources, Keyed.ofList_eq_self hnodup] at hperm
  obtain ⟨hknown, hmem⟩ := foldl_addAffected_ids hnodup extra
  refine ⟨hperm.nodup_iff.mpr hknown, ?_⟩
  intro id
  rw [hperm.mem_iff, hmem]

/-! ## The readback -/

/-- Every source of the Compact was read, so it is refused only for the number of its sources. -/
theorem compactSourceHashesMatch_iff {sourceRefs : List MemoryCompactSourceRef}
    (hnodup : (sources.map (·.contextId)).Nodup)
    (hread : ∀ sourceRef ∈ sourceRefs, sourceRef.sourceId ∈ sources.map (·.contextId)) :
    compactSourceHashesMatch (compactSourcesFor sourceRefs sources) sources = true ↔
      sourceRefs.length = sources.length := by
  have hhashes : ((compactSourcesFor sourceRefs sources).all fun sourceRef =>
      sourceRef.sourceHash == (Keyed.lookup (·.contextId) sourceRef.sourceId sources).map (·.contentHash)) = true := by
    refine List.all_eq_true.mpr ?_
    intro refreshed hrefreshed
    obtain ⟨sourceRef, hmem, rfl⟩ := List.mem_map.mp hrefreshed
    obtain ⟨source, hsource, hid⟩ := List.mem_map.mp (hread sourceRef hmem)
    have hlookup : Keyed.lookup (·.contextId) sourceRef.sourceId sources = some source :=
      (Keyed.lookup_eq_some hnodup).mpr ⟨hsource, hid⟩
    simp [Keyed.ofList_eq_self hnodup, hlookup]
  simp only [compactSourceHashesMatch, Keyed.ofList_eq_self hnodup, hhashes, Bool.and_true, decide_eq_true_iff]
  rw [compactSourcesFor, List.length_map]

theorem sourceReadback_eq_ok {verdict : Bool} (h : sourceReadback platform before after previews outcomes = .ok verdict) :
    ∃ sources : List MemoryCycleSourceSnapshot, (sources.map (·.contextId)).Nodup ∧
      (∀ id, id ∈ sources.map (·.contextId) ↔ id ∈ sourceIds previews outcomes) ∧
      verdict = compactSourceHashesMatch (compactSourcesFor (buildCycleFacts previews).sourceRefs sources) sources := by
  unfold sourceReadback at h
  cases hsnapshot : snapshot platform before previews with
  | error text =>
    rw [hsnapshot] at h
    cases h
  | ok admitted =>
    rw [hsnapshot] at h
    change (refresh platform after admitted (affectedContextIds outcomes)).map _ = _ at h
    obtain ⟨sources, hrefresh, rfl⟩ := Keyed.map_eq_ok h
    obtain ⟨hadmitted, hadmittedIds⟩ := snapshot_ids hsnapshot
    obtain ⟨hnodup, hids⟩ := refresh_ids hadmitted hrefresh
    refine ⟨sources, hnodup, ?_, rfl⟩
    intro id
    rw [hids, hadmittedIds, affectedContextIds, mem_dedupe, sourceIds, List.mem_append]

theorem length_eq_dedup_iff {selected read : List String} (hnodup : selected.Nodup) (hsubset : selected ⊆ read) :
    selected.length = read.dedup.length ↔ ∀ id ∈ read, id ∈ selected := by
  constructor
  · intro hlength id hid
    have hsub : selected ⊆ read.dedup := fun a ha => List.mem_dedup.mpr (hsubset ha)
    have hperm : selected.Perm read.dedup := (hnodup.subperm hsub).perm_of_length_le (le_of_eq hlength.symm)
    exact hperm.mem_iff.mpr (List.mem_dedup.mpr hid)
  · intro hall
    have hperm : selected.Perm read.dedup := by
      refine (List.perm_ext_iff_of_nodup hnodup (List.nodup_dedup _)).mpr ?_
      intro id
      rw [List.mem_dedup]
      exact ⟨fun h => hsubset h, hall id⟩
    exact hperm.length_eq

/-- Whatever was read before and after the child plans: the readback succeeds exactly when there are as many previews
as Contexts that were selected, compared or changed. In a window that lists each Context once these are the windows
outside which nothing was compared and nothing was changed. -/
theorem publication_readback_iff (platform : Platform) (before after : SourceReader)
    (previews : List ExistingMemoryPlanPreview) (outcomes : List MemoryCycleChildOutcome) (verdict : Bool)
    (h : sourceReadback platform before after previews outcomes = .ok verdict) :
    (verdict = true ↔ previews.length = (sourceIds previews outcomes).dedup.length) ∧
      ((previews.map (·.context.id)).Nodup →
        (verdict = true ↔ ∀ id ∈ sourceIds previews outcomes, id ∈ previews.map (·.context.id))) := by
  obtain ⟨sources, hnodup, hids, rfl⟩ := sourceReadback_eq_ok h
  have hrefs := sourceRefs_buildCycleFacts previews
  have hselected : previews.map (·.context.id) ⊆ sourceIds previews outcomes := by
    intro id hid
    obtain ⟨item, hitem, rfl⟩ := List.mem_map.mp hid
    exact List.mem_append_left _ (List.mem_flatMap.mpr ⟨item, hitem, List.mem_cons_self ..⟩)
  have hread : ∀ sourceRef ∈ (buildCycleFacts previews).sourceRefs, sourceRef.sourceId ∈ sources.map (·.contextId) := by
    intro sourceRef hmem
    obtain ⟨item, hitem, rfl⟩ := List.mem_map.mp (hrefs.mem_iff.mp hmem)
    exact (hids _).mpr (hselected (List.mem_map_of_mem hitem))
  have hlength : sources.length = (sourceIds previews outcomes).dedup.length := by
    have hperm : (sources.map (·.contextId)).Perm (sourceIds previews outcomes).dedup := by
      refine (List.perm_ext_iff_of_nodup hnodup (List.nodup_dedup _)).mpr ?_
      intro id
      rw [hids, List.mem_dedup]
    rw [← hperm.length_eq, List.length_map]
  have hverdict : compactSourceHashesMatch (compactSourcesFor (buildCycleFacts previews).sourceRefs sources) sources =
      true ↔ previews.length = (sourceIds previews outcomes).dedup.length := by
    rw [compactSourceHashesMatch_iff hnodup hread, hrefs.length_eq, List.length_map, hlength]
  refine ⟨hverdict, ?_⟩
  intro hdistinct
  rw [hverdict, ← length_eq_dedup_iff hdistinct hselected, List.length_map]

end Identifiers

/-! ## A window with one of two notes -/

/-- Two notes that have nothing to do with each other. -/
def unrelatedContexts : List ContextRecord :=
  [noteContext "obsidian:a" "service port" "the service listens on port 8080." "a.md",
    noteContext "obsidian:b" "shopping" "buy milk" "b.md"]

def unrelatedPlatform : Platform :=
  { samplePlatform with sequenceRatio := fun first second => if first = second then 1 else 6 / 41 }

/-- The vault with the two notes. -/
def unrelatedReader : SourceReader where
  readNote noteId :=
    if noteId = "a" then some ⟨"a", "a.md", "the service listens on port 8080.", "", .indexed⟩
    else if noteId = "b" then some ⟨"b", "b.md", "buy milk", "", .indexed⟩
    else none
  getContext _ := none
  noteRevision note := note.contentHash
  contextRevision context := context.content

/-- The first note is in the window, the second one is only found for it. -/
def firstSelected : List ExistingMemoryPlanPreview :=
  previewsOf unrelatedPlatform (fun _ => unrelatedContexts) (unrelatedContexts.take 1)

theorem firstSelected_refused : cycleBlockers unrelatedPlatform firstSelected = [] ∧
    sourceReadback unrelatedPlatform unrelatedReader unrelatedReader firstSelected [] = .ok false := by
  constructor
  · decide +kernel
  · decide +kernel

/-- A cycle without blockers, all of whose child plans were applied, is stopped by its own readback: the note that was
only compared is among the sources that are read, but not among those of the Compact. -/
theorem publication_refused :
    ¬ ∀ (platform : Platform) (before after : SourceReader) (previews : List ExistingMemoryPlanPreview)
      (outcomes : List MemoryCycleChildOutcome) (verdict : Bool), cycleBlockers platform previews = [] →
      (∀ outcome ∈ outcomes, outcome.status = .applied) →
      sourceReadback platform before after previews outcomes = .ok verdict → verdict = true := by
  intro publishes
  obtain ⟨hblockers, hreadback⟩ := firstSelected_refused
  cases publishes unrelatedPlatform unrelatedReader unrelatedReader firstSelected [] false hblockers (by simp) hreadback

/-- Both notes are in the window. -/
def bothSelected : List ExistingMemoryPlanPreview :=
  previewsOf unrelatedPlatform (fun _ => unrelatedContexts) unrelatedContexts

theorem publication_readback_both : ∃ verdict,
    sourceReadback unrelatedPlatform unrelatedReader unrelatedReader bothSelected [] = .ok verdict ∧ verdict = true := by
  have hreads : (sourceReadback unrelatedPlatform unrelatedReader unrelatedReader bothSelected []).isOk = true := by
    decide
  have hids : bothSelected.map (·.context.id) = ["obsidian:a", "obsidian:b"] := by decide
  have hread : (sourceIds bothSelected []).dedup = ["obsidian:a", "obsidian:b"] := by decide
  cases hverdict : sourceReadback unrelatedPlatform unrelatedReader unrelatedReader bothSelected [] with
  | error text =>
    rw [hverdict] at hreads
    cases hreads
  | ok verdict =>
    refine ⟨verdict, rfl, ?_⟩
    refine ((publication_readback_iff _ _ _ _ _ verdict hverdict).2 ?_).mpr ?_
    · rw [hids]
      decide
    · intro id hid
      rw [hids, ← hread]
      exact List.mem_dedup.mpr hid

end Alexandria.Reconciliation
