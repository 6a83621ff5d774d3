import Alexandria.Compile.Incremental
import Alexandria.Manifest.Soundness

/-! # What a plan fingerprint identifies

The fingerprint is the hash of texts that are put one after the other, each with a separator behind it. A removal leaves
only its path there and a diagnostic only its message, and no separator is kept out of them. So every plan that does
anything has the fingerprint of a plan that removes one document, at a path that spells out the rest.
-/

namespace Alexandria.Compile
set_option autoImplicit false

/-! ## The planner with its manifest validator -/

/-- The validator that the planner calls, given the order of its hash maps. -/
def Authorities.validating (A : Authorities) (order : Manifest.KeyOrder) : Authorities :=
  { A with validateContextReindexManifest := fun candidates =>
      (Manifest.validateContextReindexManifest order candidates).getD ⟨[], []⟩ }

theorem validating_nil (A : Authorities) (order : Manifest.KeyOrder) :
    (A.validating order).validateContextReindexManifest [] = ⟨[], []⟩ := by
  obtain ⟨result, reasons, hresult, hreasons, -⟩ := Manifest.validate_accepted [] order
  show (Manifest.validateContextReindexManifest order []).getD ⟨[], []⟩ = ⟨[], []⟩
  unfold Manifest.validateContextReindexManifest at hresult ⊢
  simp only at hresult ⊢
  rw [hreasons] at hresult ⊢
  simp only
  split <;> rfl

/-! ## Separators -/

section Separators
variable {terminator : String} {items : List String}

theorem terminated_cons (item : String) :
    terminated terminator (item :: items) = item ++ terminator ++ terminated terminator items := by
  unfold terminated
  rw [List.map_cons, String.join_cons]

theorem terminated_append (others : List String) :
    terminated terminator (items ++ others) = terminated terminator items ++ terminated terminator others := by
  unfold terminated
  rw [List.map_append, String.join_append]

theorem terminated_one (item : String) : terminated terminator [item] = item ++ terminator := by
  rw [terminated_cons]
  exact String.append_empty

/-- Items with separators between them are one item. -/
theorem terminated_as_one (h : items ≠ []) : ∃ item, terminated terminator items = terminated terminator [item] := by
  refine ⟨terminated terminator items.dropLast ++ items.getLast h, ?_⟩
  calc terminated terminator items = terminated terminator (items.dropLast ++ [items.getLast h]) := by
        rw [List.dropLast_append_getLast h]
    _ = terminated terminator items.dropLast ++ (items.getLast h ++ terminator) := by
        rw [terminated_append, terminated_one]
    _ = terminated terminator [terminated terminator items.dropLast ++ items.getLast h] := by
        rw [terminated_one, String.append_assoc]

/-- The terminator occurs in an item that is followed by others within the same text. -/
theorem terminated_absorbs {item other : String} (h : terminated terminator (item :: items) = terminated terminator [other])
    (hitems : items ≠ []) : ∃ rest, other = item ++ terminator ++ rest := by
  obtain ⟨last, hlast⟩ := terminated_as_one hitems
  refine ⟨last, ?_⟩
  rw [terminated_cons, hlast, terminated_one, terminated_one, ← String.append_assoc, String.append_left_inj] at h
  exact h.symm

end Separators

/-! ## What a plan does -/

/-- Two upserts do the same. -/
structure SameUpsert (left right : CompileDocumentUpsert) : Prop where
  relativePath : left.relativePath = right.relativePath
  noteId : left.noteId = right.noteId
  action : left.action = right.action
  manifestAccepted : left.manifestAccepted = right.manifestAccepted
  chunks : left.chunks = right.chunks
  edges : left.edges = right.edges
  removedEdgeIds : left.removedEdgeIds = right.removedEdgeIds
  embedding : left.embedding = right.embedding

structure SameEffects (left right : CompilePlan) : Prop where
  upserts : List.Forall₂ SameUpsert left.upserts right.upserts
  removals : left.removals = right.removals
  diagnostics : left.diagnostics = right.diagnostics

/-- Nothing is written, nothing is removed and nothing is reported. -/
structure CompilePlan.Idle (plan : CompilePlan) : Prop where
  upserts : plan.upserts = []
  removals : plan.removals = []
  diagnostics : plan.diagnostics = []

/-- Every plan with the same fingerprint has the same effects. -/
def FingerprintIdentifies (A : Authorities) (plan : CompilePlan) : Prop :=
  ∀ current previous policy other, compilePlan A current previous policy = .ok other →
    other.planFingerprint = plan.planFingerprint → SameEffects plan other

def upsertText (upsert : CompileDocumentUpsert) : String :=
  terminated "\x1e"
    [upsert.relativePath, upsert.noteId, upsert.sourceHash,
     terminated "\x1d" (upsert.chunks.map (·.contentHash)),
     terminated "\x1d" (upsert.edges.map (·.edgeId)),
     terminated "\x1d" upsert.removedEdgeIds] ++ upsert.embedding.json

/-- The texts that follow the policy version. -/
def planItems (plan : CompilePlan) : List String :=
  plan.upserts.map upsertText ++ plan.removals.map (·.relativePath) ++ plan.diagnostics.map (·.message)

theorem fingerprintSource_eq (plan : CompilePlan) :
    fingerprintSource plan = terminated "\x1f" (plan.policyVersion :: planItems plan) := rfl

theorem planItems_eq_nil {plan : CompilePlan} : planItems plan = [] ↔ plan.Idle := by
  unfold planItems
  rw [List.append_eq_nil_iff, List.append_eq_nil_iff, List.map_eq_nil_iff, List.map_eq_nil_iff, List.map_eq_nil_iff]
  constructor
  · rintro ⟨⟨hupserts, hremovals⟩, hdiagnostics⟩
    exact ⟨hupserts, hremovals, hdiagnostics⟩
  · intro h
    exact ⟨⟨h.upserts, h.removals⟩, h.diagnostics⟩

theorem SameEffects.of_idle {left right : CompilePlan} (hleft : left.Idle) (hright : right.Idle) :
    SameEffects left right where
  upserts := by
    rw [hleft.upserts, hright.upserts]
    exact .nil
  removals := hleft.removals.trans hright.removals.symm
  diagnostics := hleft.diagnostics.trans hright.diagnostics.symm

section Planner
variable {A : Authorities} {current : CurrentSourceSnapshot} {previous : PreviousCompilationSnapshot}
  {policy : CompilePolicy} {plan : CompilePlan}

/-- The checks that a successful compile made of its policy, and how its fingerprint came about. -/
theorem compilePlan_fingerprint (h : compilePlan A current previous policy = .ok plan) :
    validateCompilePolicy policy = .ok () ∧
      ChunkPolicy.new policy.chunkMaxChars policy.chunkOverlapChars = .ok policy.chunkPolicy ∧
      plan.policyVersion = A.sha256Text policy.json ∧ plan.planFingerprint = A.sha256Text (fingerprintSource plan) := by
  unfold compilePlan at h
  obtain ⟨⟨⟩, hpolicy, h⟩ := Keyed.bind_eq_ok h
  obtain ⟨indexes, -, h⟩ := Keyed.bind_eq_ok h
  obtain ⟨chunkPolicy, hchunk, h⟩ := Keyed.bind_eq_ok h
  obtain ⟨notes, -, h⟩ := Keyed.bind_eq_ok h
  obtain ⟨result, -, h⟩ := Keyed.bind_eq_ok h
  cases h
  refine ⟨hpolicy, ?_, rfl, rfl⟩
  cases hnew : ChunkPolicy.new policy.chunkMaxChars policy.chunkOverlapChars with
  | error text =>
    rw [hnew] at hchunk
    cases hchunk
  | ok found => rw [chunkPolicy_new hnew]

/-- The plan for an empty vault of which one document was compiled before. -/
theorem compilePlan_removal (A : Authorities) (order : Manifest.KeyOrder) {policy : CompilePolicy}
    (hpolicy : validateCompilePolicy policy = .ok ())
    (hchunk : ChunkPolicy.new policy.chunkMaxChars policy.chunkOverlapChars = .ok policy.chunkPolicy)
    (noteId path : String) :
    ∃ removing, compilePlan (A.validating order) ⟨[]⟩ ⟨"", [⟨noteId, path, "", [], []⟩]⟩ policy = .ok removing ∧
      removing.policyVersion = A.sha256Text policy.json ∧ removing.upserts = [] ∧
      removing.removals = [⟨noteId, path⟩] ∧ removing.diagnostics = [] := by
  have hprevious : Keyed.firstRepeated [path] = none := (Keyed.firstRepeated_eq_none _).mpr (List.nodup_singleton path)
  have hmanifest : validateManifest (A.validating order) ⟨[]⟩ = ⟨[], ⟨[], []⟩, []⟩ := by
    unfold validateManifest
    simp only [List.filterMap_nil]
    rw [validating_nil]
    rfl
  unfold compilePlan buildDocumentIndexes
  rw [hpolicy]
  simp only [List.map_nil, List.map_cons]
  rw [hprevious, hchunk, hmanifest]
  exact ⟨_, rfl, rfl, rfl, rfl, rfl⟩

/-- The fingerprint identifies a plan exactly when the plan has nothing to do. -/
theorem fingerprint_identifies_iff (A : Authorities) (order : Manifest.KeyOrder) (hhash : Function.Injective A.sha256Text)
    (current : CurrentSourceSnapshot) (previous : PreviousCompilationSnapshot) (policy : CompilePolicy)
    (hversion : '\x1f' ∉ (A.sha256Text policy.json).toList) (plan : CompilePlan)
    (hplan : compilePlan (A.validating order) current previous policy = .ok plan) :
    FingerprintIdentifies (A.validating order) plan ↔ plan.Idle := by
  obtain ⟨hpolicy, hchunk, hpolicyVersion, hfingerprint⟩ := compilePlan_fingerprint hplan
  constructor
  · intro hidentifies
    by_contra hidle
    rw [← planItems_eq_nil] at hidle
    have hone : ∃ item, terminated "\x1f" (planItems plan) = terminated "\x1f" [item] := terminated_as_one hidle
    obtain ⟨path, hpath⟩ := hone
    have hremoval : ∀ noteId, plan.removals = [⟨noteId, path⟩] := by
      intro noteId
      obtain ⟨removing, hremoving, hsame, hupserts, hremovals, hdiagnostics⟩ :=
        compilePlan_removal A order hpolicy hchunk noteId path
      have hitems : planItems removing = [path] := by
        unfold planItems
        rw [hupserts, hremovals, hdiagnostics]
        rfl
      have hsource : fingerprintSource removing = fingerprintSource plan := by
        rw [fingerprintSource_eq, fingerprintSource_eq, terminated_cons, terminated_cons, hitems, hpath, hsame,
          hpolicyVersion]
        rfl
      have hother := (compilePlan_fingerprint hremoving).2.2.2
      rw [hsource] at hother
      exact (hidentifies _ _ _ removing hremoving (hother.trans hfingerprint.symm)).removals.trans hremovals
    have hids := (hremoval "1").symm.trans (hremoval "2")
    rw [List.singleton_inj, CompileDocumentRemoval.mk.injEq] at hids
    exact absurd hids.1 (by decide)
  · intro hidle currentOther previousOther policyOther other hother hsame
    obtain ⟨-, -, -, hotherFingerprint⟩ := compilePlan_fingerprint hother
    have hsource : fingerprintSource other = fingerprintSource plan :=
      hhash (hotherFingerprint.symm.trans (hsame.trans hfingerprint))
    rw [fingerprintSource_eq, fingerprintSource_eq, planItems_eq_nil.mpr hidle] at hsource
    refine SameEffects.of_idle hidle (planItems_eq_nil.mp ?_)
    by_contra hitems
    obtain ⟨rest, hrest⟩ := terminated_absorbs hsource hitems
    -- a second item would put a separator into the version, which is a hash
    rw [hpolicyVersion] at hrest
    apply hversion
    show '\x1f' ∈ (A.sha256Text policy.json).toList
    have hlist : (A.sha256Text policy.json).toList = (other.policyVersion ++ "\x1f" ++ rest).toList :=
      congrArg String.toList hrest
    rw [hlist, String.toList_append, String.toList_append]
    simp

end Planner

theorem idle_plan_identified : ∃ plan,
    compilePlan (plainAuthorities.validating Manifest.storedOrder) ⟨[]⟩ (emptySnapshot "model-1") plainPolicy = .ok plan ∧
      FingerprintIdentifies (plainAuthorities.validating Manifest.storedOrder) plan := by
  refine ⟨_, rfl, ?_⟩
  have hversion : '\x1f' ∉ (plainAuthorities.sha256Text plainPolicy.json).toList := by decide
  exact (fingerprint_identifies_iff plainAuthorities Manifest.storedOrder Function.injective_id ⟨[]⟩
    (emptySnapshot "model-1") plainPolicy hversion _ rfl).mpr ⟨rfl, rfl, rfl⟩

/-- Two notes that were compiled at one path under different ids are removed under one fingerprint. -/
theorem removals_share_fingerprint : ∃ first second,
    compilePlan (plainAuthorities.validating Manifest.storedOrder) ⟨[]⟩ ⟨"", [⟨"1", "a.md", "", [], []⟩]⟩ plainPolicy =
      .ok first ∧
    compilePlan (plainAuthorities.validating Manifest.storedOrder) ⟨[]⟩ ⟨"", [⟨"2", "a.md", "", [], []⟩]⟩ plainPolicy =
      .ok second ∧
    first.planFingerprint = second.planFingerprint ∧ ¬ SameEffects first second := by
  have hpolicy : validateCompilePolicy plainPolicy = .ok () := rfl
  have hchunk : ChunkPolicy.new plainPolicy.chunkMaxChars plainPolicy.chunkOverlapChars = .ok plainPolicy.chunkPolicy := rfl
  obtain ⟨first, hfirst, hversion, hupserts, hremovals, hdiagnostics⟩ :=
    compilePlan_removal plainAuthorities Manifest.storedOrder hpolicy hchunk "1" "a.md"
  obtain ⟨second, hsecond, hversion', hupserts', hremovals', hdiagnostics'⟩ :=
    compilePlan_removal plainAuthorities Manifest.storedOrder hpolicy hchunk "2" "a.md"
  refine ⟨first, second, hfirst, hsecond, ?_, ?_⟩
  · rw [(compilePlan_fingerprint hfirst).2.2.2, (compilePlan_fingerprint hsecond).2.2.2]
    unfold fingerprintSource
    rw [hversion, hupserts, hremovals, hdiagnostics, hversion', hupserts', hremovals', hdiagnostics']
    rfl
  · intro hsame
    have hids := hsame.removals
    rw [hremovals, hremovals', List.singleton_inj, CompileDocumentRemoval.mk.injEq] at hids
    exact absurd hids.1 (by decide)

end Alexandria.Compile
