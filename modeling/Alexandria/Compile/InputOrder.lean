import Alexandria.Compile.WellFormed

/-! # Graph compute and the order of its input

Notes that are tied under the order of the notes differ in their type and their aliases only, and the one that comes
first in the input is kept. The computation is the same for every order of the input exactly when no such choice is
visible in its result.
-/

namespace Alexandria.Compile
set_option autoImplicit false

open Representative Lists

/-! ## What the sort key determines -/

theorem indexStatusRank_injective : Function.Injective indexStatusRank := by
  intro left right h
  cases left <;> cases right <;> simp_all [indexStatusRank]

/-- A note as far as its sort key determines it. -/
def keyed (note : GraphSourceNote) : GraphSourceNote := { note with alexandriaType := "", aliases := [] }

theorem keyed_of_key {left right : GraphSourceNote} (h : noteSortKey left = noteSortKey right) :
    keyed left = keyed right := by
  obtain ⟨noteId, relativePath, alexandriaType, title, status, project, aliases, indexStatus⟩ := left
  obtain ⟨noteId', relativePath', alexandriaType', title', status', project', aliases', indexStatus'⟩ := right
  simp only [noteSortKey, EmbeddingLike.apply_eq_iff_eq, Prod.mk.injEq] at h
  obtain ⟨rfl, rfl, rfl, rfl, hlast⟩ := h
  obtain ⟨hproject, hrank⟩ := Prod.mk.inj hlast
  obtain rfl : project = project' := hproject
  obtain rfl := indexStatusRank_injective hrank
  rfl

/-- What an edge leaves in a result, as far as its sort key determines it. -/
def keyedEdge (edge : GraphSourceEdge) : GraphSourceEdge :=
  { edge with sourcePath := "", targetNoteId := some (edge.targetNoteId.getD "") }

theorem keyedEdge_of_key {left right : GraphSourceEdge} (h : edgeSortKey left = edgeSortKey right) :
    keyedEdge left = keyedEdge right := by
  simp only [edgeSortKey, EmbeddingLike.apply_eq_iff_eq, Prod.mk.injEq, BitVec.toNat_inj] at h
  obtain ⟨hid, hsource, htarget, hpath, hrelation, hkind, hconfidence⟩ := h
  simp only [keyedEdge, hid, hsource, htarget, hpath, hrelation, hkind, hconfidence]

/-! ## When ties are not visible -/

section Ties
variable (U : UnicodeTables)

/-- The target of the edge is looked up by its link name: no node has its identity or its path. -/
structure ReachesLinkNames (notes : List GraphSourceNote) (edge : GraphSourceEdge) : Prop where
  source : ∃ note, HealthyFirst notes note ∧ note.noteId = edge.sourceNoteId
  noId : ∀ note, HealthyFirst notes note → edge.targetNoteId ≠ some note.noteId
  noPath : ∀ note, HealthyFirst notes note →
    canonicalPathKey U note.relativePath ≠ canonicalPathKey U edge.targetPath

/-- Healthy first notes of one id have one type, and a link name that not all of them have is neither a name of a
healthy first note of another id nor the name by which an edge is looked up. -/
structure TiesAgree (notes : List GraphSourceNote) (edges : List GraphSourceEdge) : Prop where
  sameType : ∀ left right, HealthyFirst notes left → HealthyFirst notes right → left.noteId = right.noteId →
    left.alexandriaType = right.alexandriaType
  unshared : ∀ left right name, HealthyFirst notes left → HealthyFirst notes right → left.noteId = right.noteId →
    name ∈ noteLinkNames U left → name ∉ noteLinkNames U right →
      ∀ other, HealthyFirst notes other → other.noteId ≠ left.noteId → name ∉ noteLinkNames U other
  unused : ∀ left right name, HealthyFirst notes left → HealthyFirst notes right → left.noteId = right.noteId →
    name ∈ noteLinkNames U left → name ∉ noteLinkNames U right →
      ∀ edge, FirstEdge edges edge → ReachesLinkNames U notes edge → linkName U edge.targetPath ≠ name

variable {U} {notes : List GraphSourceNote} {edges : List GraphSourceEdge}

theorem HealthyFirst.perm {others : List GraphSourceNote} {note : GraphSourceNote} (h : HealthyFirst notes note)
    (hperm : notes.Perm others) : HealthyFirst others note := ⟨h.least.perm hperm, h.indexed⟩

end Ties

/-! ## Equal results for two orders -/

section SameResult
variable {U : UnicodeTables} {notes others : List GraphSourceNote} {edges otherEdges : List GraphSourceEdge}

theorem keyed_healthyNotes (hperm : notes.Perm others) :
    (healthyNotes notes).map keyed = (healthyNotes others).map keyed := by
  have hkeys : (canonicalNotes notes).map noteSortKey = (canonicalNotes others).map noteSortKey :=
    representatives_key_perm noteSortKey_mono hperm
  refine filter_map_congr (map_eq_of_map_eq (fun _ _ _ _ => keyed_of_key) hkeys) fun left _ right _ hsame => ?_
  have hstatus : left.indexStatus = right.indexStatus := congrArg (·.indexStatus) hsame
  rw [hstatus]

theorem keyed_canonicalEdges (hperm : edges.Perm otherEdges) :
    (canonicalEdges edges).map keyedEdge = (canonicalEdges otherEdges).map keyedEdge :=
  map_eq_of_map_eq (fun _ _ _ _ => keyedEdge_of_key) (representatives_key_perm edgeSortKey_mono hperm)

/-! ### Looking notes up -/

variable {left right : List GraphSourceNote} (hsame : left.map keyed = right.map keyed)

theorem noteById_keyed (notes : List GraphSourceNote) (id : String) :
    (noteById notes id).map keyed = noteById (notes.map keyed) id := by
  rw [noteById, noteById, ← List.map_reverse, List.find?_map]
  rfl

theorem sortedByPath_keyed (notes : List GraphSourceNote) :
    (sortedByPath notes).map keyed = sortedByPath (notes.map keyed) :=
  List.map_insertionSort _ _ _ _ fun _ _ _ _ => Iff.rfl

include hsame

theorem notesByPath_keyed (key : String) : (notesByPath U left key).map keyed = (notesByPath U right key).map keyed := by
  rw [notesByPath, notesByPath, sortedByPath_keyed, sortedByPath_keyed]
  refine congrArg sortedByPath (filter_map_congr hsame fun a _ b _ hab => ?_)
  have hpath : a.relativePath = b.relativePath := congrArg (·.relativePath) hab
  rw [hpath]

/-- All notes of one id agree on whether they have the name. -/
theorem notesByLinkName_keyed {name : String} (hname : ∀ a ∈ left, ∀ b ∈ right, a.noteId = b.noteId →
    (name ∈ noteLinkNames U a ↔ name ∈ noteLinkNames U b)) :
    (notesByLinkName U left name).map keyed = (notesByLinkName U right name).map keyed := by
  rw [notesByLinkName, notesByLinkName, sortedByPath_keyed, sortedByPath_keyed]
  refine congrArg sortedByPath (filter_map_congr hsame fun a ha b hb hab => ?_)
  exact decide_eq_decide.mpr (hname a ha b hb (congrArg (·.noteId) hab))

end SameResult

/-! ### Resolving and projecting an edge -/

def TargetResolution.keyed : TargetResolution → TargetResolution
  | .resolved note => .resolved (Compile.keyed note)
  | .missing => .missing
  | .ambiguous => .ambiguous

/-- What an edge from a node contributes for its resolution. -/
def edgeOutcome (edge : GraphSourceEdge) (source : GraphSourceNote) :
    TargetResolution → GraphProjectionEdge ⊕ GraphProjectionIssue
  | .resolved target => .inl (edge.projected source target)
  | .ambiguous => .inr (targetIssue edge true)
  | .missing => .inr (targetIssue edge false)

theorem edgeOutcome_keyed (edge : GraphSourceEdge) (source : GraphSourceNote) (resolution : TargetResolution) :
    edgeOutcome edge (keyed source) resolution.keyed = edgeOutcome edge source resolution := by
  cases resolution <;> rfl

section SameEdge
variable {U : UnicodeTables} {left right healthy : List GraphSourceNote} {edge : GraphSourceEdge}

theorem projectEdge_eq : projectEdge U healthy edge =
    (noteById healthy edge.sourceNoteId).map fun source => edgeOutcome edge source (resolveTarget U edge healthy) := by
  unfold projectEdge edgeOutcome
  cases noteById healthy edge.sourceNoteId <;> rfl

theorem resolveTarget_keyed (hsame : left.map keyed = right.map keyed)
    (hname : edge.targetNoteId.bind (noteById left) = none → notesByPath U left (canonicalPathKey U edge.targetPath) = [] →
      linkName U edge.targetPath ≠ "" → ∀ a ∈ left, ∀ b ∈ right, a.noteId = b.noteId →
        (linkName U edge.targetPath ∈ noteLinkNames U a ↔ linkName U edge.targetPath ∈ noteLinkNames U b)) :
    (resolveTarget U edge left).keyed = (resolveTarget U edge right).keyed := by
  have hid : ∀ id, (noteById left id).map keyed = (noteById right id).map keyed := by
    intro id
    rw [noteById_keyed, noteById_keyed, hsame]
  have hbyId : (edge.targetNoteId.bind (noteById left)).map keyed = (edge.targetNoteId.bind (noteById right)).map keyed := by
    cases edge.targetNoteId with
    | none => rfl
    | some id => exact hid id
  have hpath := notesByPath_keyed (U := U) hsame (canonicalPathKey U edge.targetPath)
  rw [resolveTarget, resolveTarget, resolveTargetReference_eq, resolveTargetReference_eq]
  cases hleft : edge.targetNoteId.bind (noteById left) with
  | some a =>
    rw [hleft] at hbyId
    obtain ⟨b, hb, hab⟩ := Option.map_eq_some_iff.mp hbyId.symm
    rw [hb]
    exact congrArg TargetResolution.resolved hab.symm
  | none =>
    rw [hleft, Option.map_none, eq_comm, Option.map_eq_none_iff] at hbyId
    rw [hbyId, Option.map_none, Option.getD_none, Option.getD_none]
    have hchoice : ∀ (fallback : TargetResolution) (candidates : List GraphSourceNote),
        (chooseOne .resolved fallback .ambiguous candidates).keyed =
          chooseOne .resolved fallback.keyed .ambiguous (candidates.map keyed) := fun fallback candidates =>
      (chooseOne_map keyed TargetResolution.keyed (fun _ => rfl) fallback .ambiguous candidates).symm
    rw [hchoice, hchoice, hpath]
    cases hcandidates : notesByPath U right (canonicalPathKey U edge.targetPath) with
    | cons b rest => cases rest <;> rfl
    | nil =>
      rw [hcandidates, List.map_nil, List.map_eq_nil_iff] at hpath
      refine congrArg (chooseOne .resolved · .ambiguous []) ?_
      unfold candidateLinkNames
      by_cases hempty : linkName U edge.targetPath = ""
      · simp [hempty, resolveByLinkName]
      · have hnames := notesByLinkName_keyed hsame (hname hleft hpath hempty)
        simp only [String.isEmpty_iff, hempty, if_false, resolveByLinkName_cons, resolveByLinkName, hchoice, hnames]

/-- Two edges with one sort key contribute the same where no node has an empty id. -/
theorem projectEdge_keyedEdge (hempty : noteById healthy "" = none) :
    projectEdge U healthy (keyedEdge edge) = projectEdge U healthy edge := by
  have hid : (keyedEdge edge).targetNoteId.bind (noteById healthy) = edge.targetNoteId.bind (noteById healthy) := by
    cases htarget : edge.targetNoteId with
    | none => simpa [keyedEdge, htarget] using hempty
    | some id => simp [keyedEdge, htarget]
  have hresolve : resolveTarget U (keyedEdge edge) healthy = resolveTarget U edge healthy := by
    rw [resolveTarget, resolveTarget, resolveTargetReference_eq, resolveTargetReference_eq, hid]
    rfl
  rw [projectEdge_eq, projectEdge_eq, hresolve]
  refine congrArg (Option.map · _) ?_
  funext source
  cases resolveTarget U edge healthy <;> rfl

end SameEdge

/-! ### The whole projection -/

section SameBuild
variable {U : UnicodeTables} {notes others : List GraphSourceNote} {edges otherEdges : List GraphSourceEdge}
  {batchSize : ℕ+} (hties : TiesAgree U notes edges) (hperm : notes.Perm others)

theorem issues_of_projectionEdges {healthy : List GraphSourceNote} {kept : List GraphSourceEdge} :
    ∀ issue ∈ (projectionEdges U kept healthy).issues, ∃ edge ∈ kept, ∃ ambiguous, issue = targetIssue edge ambiguous := by
  intro issue hissue
  simp only [projectionEdges, List.mem_filterMap, Sum.getRight?_eq_some_iff] at hissue
  obtain ⟨outcome, ⟨edge, hedge, houtcome⟩, rfl⟩ := hissue
  obtain ⟨-, -, ⟨-, rfl⟩ | ⟨-, rfl⟩⟩ := projectEdge_inr.mp houtcome
  · exact ⟨edge, hedge, true, rfl⟩
  · exact ⟨edge, hedge, false, rfl⟩

theorem duplicateValues_perm {values values' : List String} (h : values.Perm values') :
    duplicateValues values = duplicateValues values' := by
  have hcount : ∀ value, values.count value = values'.count value := fun value => h.count_eq value
  unfold duplicateValues
  simp only [hcount]
  exact insertionSort_perm id (h.dedup.filter _) fun a _ b _ hab => hab

/-- A name that healthy first notes of one id do not all have belongs to one kept note at most. -/
theorem notesByLinkName_length {name : String} {id : String} {kept : List GraphSourceNote}
    (hnodup : (kept.map (·.noteId)).Nodup) (hid : ∀ note ∈ kept, name ∈ noteLinkNames U note → note.noteId = id) :
    (notesByLinkName U kept name).length ≤ 1 := by
  have hdistinct : ((kept.filter fun note => name ∈ noteLinkNames U note).map (·.noteId)).Nodup :=
    (List.filter_sublist.map _).nodup hnodup
  have hall : ∀ x ∈ (kept.filter fun note => name ∈ noteLinkNames U note).map (·.noteId), x = id := by
    intro x hx
    obtain ⟨note, hnote, rfl⟩ := List.mem_map.mp hx
    obtain ⟨hmem, hname⟩ := List.mem_filter.mp hnote
    exact hid note hmem (of_decide_eq_true hname)
  rw [List.eq_replicate_of_mem hall, List.nodup_replicate, List.length_map] at hdistinct
  rw [notesByLinkName, (sortedByPath_perm _).length_eq]
  exact hdistinct

include hperm in
theorem names_agree {name : String} (hagree : ∀ left right, HealthyFirst notes left → HealthyFirst notes right →
      left.noteId = right.noteId → name ∈ noteLinkNames U left → name ∈ noteLinkNames U right) :
    ∀ a ∈ healthyNotes notes, ∀ b ∈ healthyNotes others, a.noteId = b.noteId →
      (name ∈ noteLinkNames U a ↔ name ∈ noteLinkNames U b) := by
  intro a ha b hb hid
  have hfirst := healthyFirst_of_mem ha
  have hsecond := (healthyFirst_of_mem hb).perm hperm.symm
  exact ⟨hagree a b hfirst hsecond hid, hagree b a hsecond hfirst hid.symm⟩

include hties hperm

theorem projectEdge_ties {edge : GraphSourceEdge} (hedge : FirstEdge edges edge) :
    projectEdge U (healthyNotes notes) edge = projectEdge U (healthyNotes others) edge := by
  have hsame := keyed_healthyNotes hperm
  have hsource : (noteById (healthyNotes notes) edge.sourceNoteId).map keyed =
      (noteById (healthyNotes others) edge.sourceNoteId).map keyed := by rw [noteById_keyed, noteById_keyed, hsame]
  rw [projectEdge_eq, projectEdge_eq]
  cases hfound : noteById (healthyNotes notes) edge.sourceNoteId with
  | none =>
    rw [hfound, Option.map_none, eq_comm, Option.map_eq_none_iff] at hsource
    rw [hsource]
    rfl
  | some source =>
    rw [hfound] at hsource
    obtain ⟨source', hfound', hkeyed⟩ := Option.map_eq_some_iff.mp hsource.symm
    have hnodup := healthyNotes_nodup notes
    obtain ⟨hmem, hid⟩ := (noteById_eq_some hnodup).mp hfound
    have hresolve : (resolveTarget U edge (healthyNotes notes)).keyed = (resolveTarget U edge (healthyNotes others)).keyed := by
      refine resolveTarget_keyed hsame fun hnoId hnoPath hnamed => names_agree hperm fun left right hleft hright hid' hname => ?_
      by_contra hmissing
      refine hties.unused left right _ hleft hright hid' hname hmissing edge hedge ⟨⟨source, healthyFirst_of_mem hmem, hid⟩,
        fun note hnote htarget => ?_, fun note hnote hpath => ?_⟩ rfl
      · obtain ⟨kept, hkept, hkey⟩ := hnote.kept
        have hkeptId : kept.noteId = note.noteId := congrArg (·.noteId) (keyed_of_key hkey)
        exact (targetById_eq_none hnodup).mp hnoId kept hkept (hkeptId ▸ htarget)
      · obtain ⟨kept, hkept, hkey⟩ := hnote.kept
        have hkeptPath : kept.relativePath = note.relativePath := congrArg (·.relativePath) (keyed_of_key hkey)
        have hnil := List.filter_eq_nil_iff.mp (sortedByPath_eq_nil.mp hnoPath) kept hkept
        exact hnil (decide_eq_true (hkeptPath ▸ hpath))
    rw [hfound', Option.map_some, Option.map_some, ← edgeOutcome_keyed, ← edgeOutcome_keyed edge source', hresolve, hkeyed]

theorem linkCandidates_ties (name : String) :
    1 < (notesByLinkName U (healthyNotes notes) name).length ∨ 1 < (notesByLinkName U (healthyNotes others) name).length →
      (notesByLinkName U (healthyNotes notes) name).map keyed = (notesByLinkName U (healthyNotes others) name).map keyed := by
  intro hmany
  refine notesByLinkName_keyed (keyed_healthyNotes hperm) (names_agree hperm fun left right hleft hright hid hname => ?_)
  by_contra hmissing
  have honly : ∀ note, HealthyFirst notes note → name ∈ noteLinkNames U note → note.noteId = left.noteId := by
    intro note hnote hnamed
    by_contra hother
    exact hties.unshared left right name hleft hright hid hname hmissing note hnote hother hnamed
  have hfirst := notesByLinkName_length (U := U) (healthyNotes_nodup notes) fun note hnote =>
    honly note (healthyFirst_of_mem hnote)
  have hsecond := notesByLinkName_length (U := U) (healthyNotes_nodup others) fun note hnote =>
    honly note ((healthyFirst_of_mem hnote).perm hperm.symm)
  omega

theorem ambiguousLinkNames_ties :
    ambiguousLinkNames U (healthyNotes notes) = ambiguousLinkNames U (healthyNotes others) := by
  have hnamed : ∀ (kept : List GraphSourceNote) (name : String), 1 < (notesByLinkName U kept name).length →
      name ∈ kept.flatMap (noteLinkNames U) := by
    intro kept name hmany
    obtain ⟨note, hnote⟩ := List.exists_mem_of_length_pos (Nat.zero_lt_of_lt hmany)
    obtain ⟨hmem, hname⟩ := List.mem_filter.mp ((sortedByPath_perm _).mem_iff.mp hnote)
    exact List.mem_flatMap.mpr ⟨note, hmem, of_decide_eq_true hname⟩
  have hpaths : ∀ kept : List GraphSourceNote, kept.map (·.relativePath) = (kept.map keyed).map (·.relativePath) := by
    intro kept
    rw [List.map_map]
    rfl
  unfold ambiguousLinkNames
  refine filterMap_sorted_congr (fun name => ?_) (fun name hsome => ?_) (fun name hsome => ?_)
  · by_cases hmany : 1 < (notesByLinkName U (healthyNotes notes) name).length ∨
        1 < (notesByLinkName U (healthyNotes others) name).length
    · have hsame := linkCandidates_ties hties hperm name hmany
      have hlength := congrArg List.length hsame
      rw [List.length_map, List.length_map] at hlength
      have hsamePaths := (hpaths _).trans ((congrArg (List.map (·.relativePath)) hsame).trans (hpaths _).symm)
      simp only [hlength, hsamePaths]
    · rw [not_or] at hmany
      simp only [hmany.1, hmany.2, if_false]
  · refine hnamed _ name ?_
    by_contra hfew
    simp [hfew] at hsome
  · refine hnamed _ name ?_
    by_contra hfew
    simp [hfew] at hsome

theorem projectionEdges_ties (hedges : edges.Perm otherEdges) (hempty : noteById (healthyNotes others) "" = none) :
    projectionEdges U (canonicalEdges edges) (healthyNotes notes) =
      projectionEdges U (canonicalEdges otherEdges) (healthyNotes others) := by
  have houtcomes : (canonicalEdges edges).filterMap (projectEdge U (healthyNotes notes)) =
      (canonicalEdges otherEdges).filterMap (projectEdge U (healthyNotes others)) := by
    have hkeyed : ∀ kept : List GraphSourceEdge, kept.filterMap (projectEdge U (healthyNotes others)) =
        (kept.map keyedEdge).filterMap (projectEdge U (healthyNotes others)) := by
      intro kept
      rw [List.filterMap_map]
      exact List.filterMap_congr fun edge _ => (projectEdge_keyedEdge hempty).symm
    rw [hkeyed (canonicalEdges otherEdges), ← keyed_canonicalEdges hedges, ← hkeyed]
    exact List.filterMap_congr fun edge hedge =>
      projectEdge_ties hties hperm (least_of_mem edgeSortKey_mono hedge)
  simp only [projectionEdges, houtcomes]

omit hties in
theorem issues_ties {issues : List GraphProjectionIssue} (hissues : ∀ issue ∈ issues, ∃ edge ∈ canonicalEdges edges,
      ∃ ambiguous, issue = targetIssue edge ambiguous) :
    (indexErrorIssues notes ++ issues).insertionSort (fun left right => issueSortKey left ≤ issueSortKey right) =
      (indexErrorIssues others ++ issues).insertionSort fun left right => issueSortKey left ≤ issueSortKey right := by
  refine insertionSort_perm issueSortKey (((hperm.filter _).map _).append_right _) fun left hleft right hright hkey => ?_
  simp only [issueSortKey, EmbeddingLike.apply_eq_iff_eq, Prod.mk.injEq] at hkey
  obtain ⟨hcode, hpath, hid⟩ := hkey
  rcases List.mem_append.mp hleft with hleft | hleft <;> rcases List.mem_append.mp hright with hright | hright
  · obtain ⟨a, -, rfl⟩ := List.mem_map.mp hleft
    obtain ⟨b, -, rfl⟩ := List.mem_map.mp hright
    simp_all
  · obtain ⟨a, -, rfl⟩ := List.mem_map.mp hleft
    obtain ⟨edge, -, ambiguous, rfl⟩ := hissues right hright
    cases ambiguous <;> simp [targetIssue, GraphProjectionIssueCode.asStr] at hcode
  · obtain ⟨edge, -, ambiguous, rfl⟩ := hissues left hleft
    obtain ⟨b, -, rfl⟩ := List.mem_map.mp hright
    cases ambiguous <;> simp [targetIssue, GraphProjectionIssueCode.asStr] at hcode
  · -- kept edges have distinct ids, and the code says whether the target was ambiguous
    obtain ⟨edge, hedge, ambiguous, rfl⟩ := hissues left hleft
    obtain ⟨edge', hedge', ambiguous', rfl⟩ := hissues right hright
    obtain rfl := List.inj_on_of_nodup_map (canonicalEdges_nodup edges) hedge hedge' (by simpa [targetIssue] using hid)
    cases ambiguous <;> cases ambiguous' <;> first | rfl | simp [targetIssue, GraphProjectionIssueCode.asStr] at hcode

variable (batchSize) in
theorem buildProjection_ties (hedges : edges.Perm otherEdges) (hempty : noteById (healthyNotes others) "" = none) :
    buildProjection U notes edges batchSize = buildProjection U others otherEdges batchSize := by
  have hnodes : (healthyNotes notes).map projectionNode = (healthyNotes others).map projectionNode := by
    have hkept := keyed_healthyNotes hperm
    have hfirst : ∀ left ∈ healthyNotes notes, ∀ right ∈ healthyNotes others, keyed left = keyed right →
        projectionNode left = projectionNode right := by
      intro left hleft right hright hsame
      have htype := hties.sameType left right (healthyFirst_of_mem hleft)
        ((healthyFirst_of_mem hright).perm hperm.symm) (congrArg (·.noteId) hsame)
      have hnode : ∀ note, projectionNode note = { projectionNode (keyed note) with alexandriaType := note.alexandriaType } :=
        fun _ => rfl
      rw [hnode left, hnode right, hsame, htype]
    exact map_eq_of_map_eq hfirst hkept
  have hresult := projectionEdges_ties hties hperm hedges hempty
  have hissues := issues_ties hperm (@issues_of_projectionEdges U (healthyNotes notes) (canonicalEdges edges))
  have hnames := ambiguousLinkNames_ties hties hperm
  have hnoteIds := duplicateValues_perm (hperm.map (·.noteId))
  have hedgeIds := duplicateValues_perm (hedges.map (·.edgeId))
  simp only [buildProjection, hnodes, hnames, hnoteIds, hedgeIds, hperm.length_eq, hedges.length_eq]
  rw [hissues, hresult]

end SameBuild

/-! ## Orders that show a tie -/

section Shown
variable {U : UnicodeTables} {notes rest : List GraphSourceNote} {edges : List GraphSourceEdge} {batchSize : ℕ+}
  {v w : GraphSourceNote} {name : String}

/-- A healthy first note at the head of the input is kept. -/
theorem HealthyFirst.mem_head (h : HealthyFirst (v :: rest) v) : v ∈ healthyNotes (v :: rest) :=
  mem_healthyNotes.mpr ⟨mem_representatives_cons noteSortKey_mono h.least, h.indexed⟩

theorem mem_healthyNotes_cons_of_ne {note : GraphSourceNote} (h : note.noteId ≠ v.noteId) :
    note ∈ healthyNotes (v :: rest) ↔ note ∈ healthyNotes rest := by
  rw [mem_healthyNotes, mem_healthyNotes, canonicalNotes_eq, canonicalNotes_eq,
    mem_representatives_cons_of_ne noteSortKey_mono h]

theorem healthyNotes_unique {left right : GraphSourceNote} (hleft : left ∈ healthyNotes notes)
    (hright : right ∈ healthyNotes notes) (h : left.noteId = right.noteId) : left = right :=
  List.inj_on_of_nodup_map (healthyNotes_nodup notes) hleft hright h

theorem mem_ambiguousLinkNames {kept : List GraphSourceNote} {paths : List String} :
    ⟨name, paths⟩ ∈ ambiguousLinkNames U kept ↔
      1 < (notesByLinkName U kept name).length ∧ paths = (notesByLinkName U kept name).map (·.relativePath) := by
  unfold ambiguousLinkNames
  simp only [List.mem_filterMap, List.mem_insertionSort, List.mem_dedup, List.mem_flatMap, Option.ite_none_right_eq_some,
    Option.some.injEq, AmbiguousLinkName.mk.injEq]
  constructor
  · rintro ⟨name', -, hmany, rfl, rfl⟩
    exact ⟨hmany, rfl⟩
  · rintro ⟨hmany, rfl⟩
    obtain ⟨note, hnote⟩ := List.exists_mem_of_length_pos (Nat.zero_lt_of_lt hmany)
    obtain ⟨hmem, hname⟩ := List.mem_filter.mp ((sortedByPath_perm _).mem_iff.mp hnote)
    exact ⟨name, ⟨note, hmem, of_decide_eq_true hname⟩, hmany, rfl, rfl⟩

/-- The notes that answer to a name, with the one of two tied notes that has it at the head of the input, are those with
the other one at the head and the first one. -/
theorem named_swap (hv : HealthyFirst (v :: w :: rest) v) (hw : HealthyFirst (w :: v :: rest) w)
    (hid : v.noteId = w.noteId) (hname : name ∈ noteLinkNames U v) (hmissing : name ∉ noteLinkNames U w) :
    ((healthyNotes (v :: w :: rest)).filter fun note => name ∈ noteLinkNames U note).Perm
      (v :: (healthyNotes (w :: v :: rest)).filter fun note => name ∈ noteLinkNames U note) := by
  have hvmem := hv.mem_head
  have hwmem := hw.mem_head
  have other : ∀ note ∈ healthyNotes (w :: v :: rest), name ∈ noteLinkNames U note → note.noteId ≠ v.noteId := by
    intro note hnote hnamed hsame
    rw [healthyNotes_unique hnote hwmem (hsame.trans hid)] at hnamed
    exact hmissing hnamed
  have hnew : v ∉ (healthyNotes (w :: v :: rest)).filter fun note => name ∈ noteLinkNames U note := by
    intro hmem
    obtain ⟨hkept, hnamed⟩ := List.mem_filter.mp hmem
    exact other v hkept (of_decide_eq_true hnamed) rfl
  refine (List.perm_ext_iff_of_nodup ((nodup_of_ids (healthyNotes_nodup _)).filter _)
    (List.nodup_cons.mpr ⟨hnew, (nodup_of_ids (healthyNotes_nodup _)).filter _⟩)).mpr fun note => ?_
  simp only [List.mem_cons, List.mem_filter, decide_eq_true_eq]
  have hswap : note.noteId ≠ v.noteId →
      (note ∈ healthyNotes (v :: w :: rest) ↔ note ∈ healthyNotes (w :: v :: rest)) := by
    intro hne
    have hne' : note.noteId ≠ w.noteId := hid ▸ hne
    rw [mem_healthyNotes_cons_of_ne hne, mem_healthyNotes_cons_of_ne hne', mem_healthyNotes_cons_of_ne hne',
      mem_healthyNotes_cons_of_ne hne]
  constructor
  · rintro ⟨hmem, hnamed⟩
    by_cases hsame : note.noteId = v.noteId
    · exact .inl (healthyNotes_unique hmem hvmem hsame)
    · exact .inr ⟨(hswap hsame).mp hmem, hnamed⟩
  · rintro (rfl | ⟨hmem, hnamed⟩)
    · exact ⟨hvmem, hname⟩
    · exact ⟨(hswap (other note hmem hnamed)).mpr hmem, hnamed⟩

/-- The same diagnostics with either note at the head: no other node answers to the name. -/
theorem named_alone (hv : HealthyFirst (v :: w :: rest) v) (hw : HealthyFirst (w :: v :: rest) w)
    (hid : v.noteId = w.noteId) (hname : name ∈ noteLinkNames U v) (hmissing : name ∉ noteLinkNames U w)
    (hsame : ambiguousLinkNames U (healthyNotes (v :: w :: rest)) = ambiguousLinkNames U (healthyNotes (w :: v :: rest))) :
    ((healthyNotes (w :: v :: rest)).filter fun note => name ∈ noteLinkNames U note) = [] := by
  have hlength := (named_swap hv hw hid hname hmissing).length_eq
  rw [List.length_cons] at hlength
  by_contra hother
  have hpos := List.length_pos_of_ne_nil hother
  have hsorted : ∀ kept : List GraphSourceNote, (notesByLinkName U kept name).length =
      (kept.filter fun note => name ∈ noteLinkNames U note).length := fun kept => (sortedByPath_perm _).length_eq
  have hmany : 1 < (notesByLinkName U (healthyNotes (v :: w :: rest)) name).length := by
    rw [hsorted]
    omega
  have hentry := mem_ambiguousLinkNames.mpr ⟨hmany, rfl⟩
  rw [hsame] at hentry
  have hpaths := congrArg List.length (mem_ambiguousLinkNames.mp hentry).2
  rw [List.length_map, List.length_map, hsorted, hsorted] at hpaths
  omega

theorem perm_pair (hv : v ∈ notes) (hw : w ∈ notes) (hne : v ≠ w) : ∃ rest, notes.Perm (v :: w :: rest) := by
  have hw' : w ∈ notes.erase v := (List.mem_erase_of_ne hne.symm).mpr hw
  exact ⟨(notes.erase v).erase w, (List.perm_cons_erase hv).trans ((List.perm_cons_erase hw').cons v)⟩

section SameBuilds
variable (hsame : ∀ left right kept, notes.Perm left → notes.Perm right → edges.Perm kept →
  buildProjection U left kept batchSize = buildProjection U right kept batchSize)
include hsame

theorem sameType_of_builds (hv : HealthyFirst notes v) (hw : HealthyFirst notes w) (hid : v.noteId = w.noteId) :
    v.alexandriaType = w.alexandriaType := by
  have hleft := List.perm_cons_erase hv.least.mem
  have hright := List.perm_cons_erase hw.least.mem
  have hnodes : (healthyNotes (v :: notes.erase v)).map projectionNode =
      (healthyNotes (w :: notes.erase w)).map projectionNode :=
    congrArg (fun result => result.projection.nodes) (hsame _ _ edges hleft hright (List.Perm.refl _))
  have hnode := List.mem_map_of_mem (f := projectionNode) (hw.perm hright).mem_head
  rw [← hnodes] at hnode
  obtain ⟨note, hnote, hsameNode⟩ := List.mem_map.mp hnode
  have hnoteId : note.noteId = v.noteId := (congrArg (·.noteId) hsameNode).trans hid.symm
  rw [healthyNotes_unique hnote (hv.perm hleft).mem_head hnoteId] at hsameNode
  exact congrArg (·.alexandriaType) hsameNode

theorem named_alone_of_builds (hv : HealthyFirst notes v) (hw : HealthyFirst notes w) (hid : v.noteId = w.noteId)
    (hname : name ∈ noteLinkNames U v) (hmissing : name ∉ noteLinkNames U w) (hperm : notes.Perm (v :: w :: rest)) :
    ((healthyNotes (w :: v :: rest)).filter fun note => name ∈ noteLinkNames U note) = [] := by
  have hswap := hperm.trans (List.Perm.swap w v rest)
  refine named_alone (hv.perm hperm) (hw.perm hswap) hid hname hmissing ?_
  exact congrArg (fun result => result.structuralDiagnostics.ambiguousLinkNames)
    (hsame _ _ edges hperm hswap (List.Perm.refl _))

theorem unshared_of_builds (hv : HealthyFirst notes v) (hw : HealthyFirst notes w) (hid : v.noteId = w.noteId)
    (hname : name ∈ noteLinkNames U v) (hmissing : name ∉ noteLinkNames U w) {other : GraphSourceNote}
    (hother : HealthyFirst notes other) (hne : other.noteId ≠ v.noteId) : name ∉ noteLinkNames U other := by
  intro hnamed
  obtain ⟨rest, hperm⟩ := perm_pair hv.least.mem hw.least.mem fun h => hmissing (h ▸ hname)
  have hrest : other ∈ rest := by
    have hmem := hperm.mem_iff.mp hother.least.mem
    rcases List.mem_cons.mp hmem with rfl | hmem
    · exact absurd rfl hne
    · rcases List.mem_cons.mp hmem with rfl | hmem
      · exact absurd hid.symm hne
      · exact hmem
  -- the other holder of the name goes before the rest, so that it is kept as well
  have hperm' : notes.Perm (v :: w :: other :: rest.erase other) :=
    hperm.trans (((List.perm_cons_erase hrest).cons w).cons v)
  have halone := named_alone_of_builds hsame hv hw hid hname hmissing hperm'
  have hkept : other ∈ healthyNotes (w :: v :: other :: rest.erase other) := by
    rw [mem_healthyNotes_cons_of_ne (hid ▸ hne), mem_healthyNotes_cons_of_ne hne]
    have hfirst := hother.perm hperm'
    refine HealthyFirst.mem_head ⟨⟨List.mem_cons_self, fun note hnote => ?_⟩, hother.indexed⟩
    exact hfirst.least.le note (List.mem_cons_of_mem v (List.mem_cons_of_mem w hnote))
  have hmem : other ∈ (healthyNotes (w :: v :: other :: rest.erase other)).filter fun note => name ∈ noteLinkNames U note :=
    List.mem_filter.mpr ⟨hkept, decide_eq_true hnamed⟩
  rw [halone] at hmem
  cases hmem

theorem unused_of_builds (hv : HealthyFirst notes v) (hw : HealthyFirst notes w) (hid : v.noteId = w.noteId)
    (hname : name ∈ noteLinkNames U v) (hmissing : name ∉ noteLinkNames U w) {edge : GraphSourceEdge}
    (hedge : FirstEdge edges edge) (hreach : ReachesLinkNames U notes edge) : linkName U edge.targetPath ≠ name := by
  rintro rfl
  obtain ⟨rest, hperm⟩ := perm_pair hv.least.mem hw.least.mem fun h => hmissing (h ▸ hname)
  have hswap := hperm.trans (List.Perm.swap w v rest)
  have halone := named_alone_of_builds hsame hv hw hid hname hmissing hperm
  have hnamed := named_swap (hv.perm hperm) (hw.perm hswap) hid hname hmissing
  rw [halone] at hnamed
  have hedges := List.perm_cons_erase hedge.mem
  have hkept : edge ∈ canonicalEdges (edge :: edges.erase edge) :=
    mem_representatives_cons edgeSortKey_mono (hedge.perm hedges)
  obtain ⟨first, hfirst, hsource⟩ := hreach.source
  obtain ⟨source, hsourceMem, hkey⟩ := (hfirst.perm hperm).kept
  have hsourceId : source.noteId = edge.sourceNoteId := (congrArg (·.noteId) (keyed_of_key hkey)).trans hsource
  -- with `v` at the head the edge goes to `v`
  have hresolves : ResolvesTo U (healthyNotes (v :: w :: rest)) edge v := by
    refine .byLinkName (fun note hnote => hreach.noId note ((healthyFirst_of_mem hnote).perm hperm.symm))
      (fun note hnote => hreach.noPath note ((healthyFirst_of_mem hnote).perm hperm.symm)) ?_
      ⟨(hv.perm hperm).mem_head, hname, fun note hnote hnoteName => ?_⟩
    · rintro hempty
      simp [noteLinkNames, hempty] at hname
    · exact List.mem_singleton.mp (hnamed.mem_iff.mp (List.mem_filter.mpr ⟨hnote, decide_eq_true hnoteName⟩))
  have hprojected : edge.projected source v ∈
      (buildProjection U (v :: w :: rest) (edge :: edges.erase edge) batchSize).projection.edges :=
    mem_built_edges.mpr ⟨edge, hkept, source, hsourceMem, v, hsourceId, hresolves, rfl⟩
  rw [hsame _ _ _ hperm hswap hedges] at hprojected
  -- with `w` at the head no kept note has its name
  obtain ⟨edge', hkept', source', -, target, -, hresolves', hsameEdge⟩ := mem_built_edges.mp hprojected
  have hedgeId : edge.edgeId = edge'.edgeId := congrArg (·.edgeId) hsameEdge
  obtain rfl := List.inj_on_of_nodup_map (canonicalEdges_nodup _) hkept hkept' hedgeId
  have htarget := (healthyFirst_of_mem hresolves'.mem).perm hswap.symm
  cases hresolves' with
  | byId mem id => exact hreach.noId target htarget id
  | byPath noId only => exact hreach.noPath target htarget only.holds
  | byLinkName noId noPath named only =>
    have hmem : target ∈ (healthyNotes (w :: v :: rest)).filter fun note =>
        linkName U edge.targetPath ∈ noteLinkNames U note :=
      List.mem_filter.mpr ⟨only.mem, decide_eq_true only.holds⟩
    rw [halone] at hmem
    cases hmem

theorem tiesAgree_of_builds : TiesAgree U notes edges where
  sameType _ _ hv hw hid := sameType_of_builds hsame hv hw hid
  unshared _ _ _ hv hw hid hname hmissing _ hother hne := unshared_of_builds hsame hv hw hid hname hmissing hother hne
  unused _ _ _ hv hw hid hname hmissing _ hedge hreach := unused_of_builds hsame hv hw hid hname hmissing hedge hreach

end SameBuilds
end Shown

/-! ## Requests with one input in another order -/

theorem bind_ok_iff {ε : Type} {first second : Except ε Unit} :
    (first >>= fun _ => second) = .ok () ↔ first = .ok () ∧ second = .ok () := by
  cases first <;> simp [bind, Except.bind]

theorem forM_ok_iff {α ε : Type} {f : α → Except ε Unit} {xs : List α} :
    xs.forM f = .ok () ↔ ∀ x ∈ xs, f x = .ok () := by
  induction xs with
  | nil => simp [pure, Except.pure]
  | cons x xs ih =>
    rw [List.forall_mem_cons, ← ih]
    exact bind_ok_iff

theorem validateSource_ok_iff {notes : List GraphSourceNote} {edges : List GraphSourceEdge} :
    validateSource notes edges = .ok () ↔
      (∀ note ∈ notes, validateNote note = .ok ()) ∧ ∀ edge ∈ edges, validateEdge edge = .ok () := by
  rw [← forM_ok_iff, ← forM_ok_iff]
  exact bind_ok_iff

/-- Validation does not look at the order of the notes and edges. -/
theorem validate_reordered {input : GraphComputeInput} {notes : List GraphSourceNote} {edges : List GraphSourceEdge}
    (hnotes : input.sourceNotes.Perm notes) (hedges : input.sourceEdges.Perm edges) (h : input.validate = .ok ()) :
    { input with sourceNotes := notes, sourceEdges := edges }.validate = .ok () := by
  unfold GraphComputeInput.validate at h ⊢
  simp only [← hnotes.length_eq, ← hedges.length_eq]
  split_ifs at h ⊢
  obtain ⟨hsource, hrequests⟩ := bind_ok_iff.mp h
  obtain ⟨hvalidNotes, hvalidEdges⟩ := validateSource_ok_iff.mp hsource
  refine bind_ok_iff.mpr ⟨validateSource_ok_iff.mpr ⟨fun note hnote => ?_, fun edge hedge => ?_⟩, hrequests⟩
  · exact hvalidNotes note (hnotes.mem_iff.mpr hnote)
  · exact hvalidEdges edge (hedges.mem_iff.mpr hedge)

def GraphComputeRequest.reordered (request : GraphComputeRequest) {notes : List GraphSourceNote}
    {edges : List GraphSourceEdge} (hnotes : request.sourceNotes.Perm notes) (hedges : request.sourceEdges.Perm edges) :
    GraphComputeRequest :=
  ⟨{ request.toGraphComputeInput with sourceNotes := notes, sourceEdges := edges },
    validate_reordered hnotes hedges request.valid⟩

/-- The same request with its notes and edges in another order. -/
structure GraphComputeRequest.Reorders (request other : GraphComputeRequest) : Prop where
  notes : request.sourceNotes.Perm other.sourceNotes
  edges : request.sourceEdges.Perm other.sourceEdges
  rest : other.toGraphComputeInput =
    { request.toGraphComputeInput with sourceNotes := other.sourceNotes, sourceEdges := other.sourceEdges }

/-- No note of a request has an empty id. -/
theorem GraphComputeRequest.noteById_empty (request : GraphComputeRequest) :
    noteById (healthyNotes request.sourceNotes) "" = none := by
  rw [Option.eq_none_iff_forall_ne_some]
  intro note hnote
  obtain ⟨hmem, hid⟩ := (noteById_eq_some (healthyNotes_nodup _)).mp hnote
  have hvalid := request.valid
  unfold GraphComputeInput.validate at hvalid
  split_ifs at hvalid
  obtain ⟨hvalidNotes, -⟩ := validateSource_ok_iff.mp (bind_ok_iff.mp hvalid).1
  have hblank := hvalidNotes note (healthyFirst_of_mem hmem).least.mem
  simp [validateNote, validateNonBlank, hid, Text.isBlank, Text.trimBy, bind, Except.bind] at hblank

section Requests
variable (U : UnicodeTables) (kosarajuScc : ComponentFinder)

theorem build_eq_of_compute {request other : GraphComputeRequest}
    (h : computeGraph U kosarajuScc other = computeGraph U kosarajuScc request) : other.build U = request.build U := by
  obtain ⟨analysis, hanalysis⟩ := computeGraph_ok U kosarajuScc request
  obtain ⟨analysis', hanalysis'⟩ := computeGraph_ok U kosarajuScc other
  rw [hanalysis, hanalysis'] at h
  exact congrArg GraphComputeResult.toProjectionBuildResult (Except.ok.inj h)

/-- The computation is the same for every order of the notes and edges exactly when ties are not visible. -/
theorem computeGraph_order_iff (request : GraphComputeRequest) :
    (∀ other, request.Reorders other → computeGraph U kosarajuScc other = computeGraph U kosarajuScc request) ↔
      TiesAgree U request.sourceNotes request.sourceEdges := by
  constructor
  · intro hsame
    refine @tiesAgree_of_builds U _ _ ⟨request.batchSize, request.batchSize_pos⟩
      fun left right kept hleft hright hkept => ?_
    have hbuildLeft := build_eq_of_compute U kosarajuScc (hsame (request.reordered hleft hkept) ⟨hleft, hkept, rfl⟩)
    have hbuildRight := build_eq_of_compute U kosarajuScc (hsame (request.reordered hright hkept) ⟨hright, hkept, rfl⟩)
    exact hbuildLeft.trans hbuildRight.symm
  · rintro hties ⟨⟨notes, edges, previous, batchSize, traversals, lineages⟩, hvalid⟩ ⟨hnotes, hedges, hrest⟩
    simp only [GraphComputeInput.mk.injEq, true_and] at hrest
    obtain ⟨rfl, rfl, rfl, rfl⟩ := hrest
    have hbuild := buildProjection_ties ⟨request.batchSize, request.batchSize_pos⟩ hties hnotes hedges
      (GraphComputeRequest.noteById_empty ⟨_, hvalid⟩)
    unfold computeGraph GraphComputeRequest.build
    rw [hbuild]

end Requests

/-- Two notes that differ in their type only. -/
def typedNote (alexandriaType : String) : GraphSourceNote :=
  ⟨"n", "n.md", alexandriaType, "n", "active", none, [], .indexed⟩

def typedRequest : GraphComputeRequest :=
  ⟨⟨[typedNote "context", typedNote "skill"], [], none, 1, [], []⟩, by decide⟩

theorem typedRequest_swap : typedRequest.sourceNotes.Perm [typedNote "skill", typedNote "context"] :=
  List.Perm.swap _ _ _

theorem computeGraph_keeps_first_type :
    ¬ ∀ (U : UnicodeTables) (kosarajuScc : ComponentFinder) (request other : GraphComputeRequest),
      request.Reorders other → computeGraph U kosarajuScc other = computeGraph U kosarajuScc request := by
  intro same
  have hbuild := build_eq_of_compute ⟨id, id⟩ (fun _ _ => []) (same ⟨id, id⟩ (fun _ _ => []) typedRequest
    (typedRequest.reordered typedRequest_swap (List.Perm.refl _)) ⟨typedRequest_swap, List.Perm.refl _, rfl⟩)
  have htypes := congrArg (fun result => result.projection.nodes.map (·.alexandriaType)) hbuild
  exact absurd htypes (by decide)

end Alexandria.Compile
