import Alexandria.Foundations.Growth
import Alexandria.Foundations.Keyed
import Alexandria.ManagedSpec.Execution

/-! # Runs of managed specifications

In every run of prepares and completions, with reads, answers and saves that fail at will, the first prepare of a key fixes its
envelope, the first recorded completion its output, and every request that the writer receives names two canonical notes that
were read and checked in the same call.
-/

namespace Alexandria.ManagedSpec
set_option autoImplicit false

open Text Growth
open Notes (JsonObject JsonValue hexDigits)

section Runs
variable {φ : Type} {env : SpecEnvironment φ}

/-! ## What the checks establish -/

@[simp] theorem requires_eq_ok {holds : Bool} {cause : String} : requires holds cause = .ok () ↔ holds = true := by
  unfold requires
  split <;> simp_all

theorem metadataText_ok {note : ObsidianNote φ} {key text : String} (h : metadataText note key = .ok text) :
    ∃ value, note.frontmatter.get key = .str value ∧ pythonStrip value = text := by
  unfold metadataText at h
  split at h
  · rename_i value hvalue
    split at h
    · cases h
    · exact ⟨value, hvalue, Except.ok.inj h⟩
  · cases h

theorem metadataBool_ok {note : ObsidianNote φ} {key : String} {value : Bool} (h : metadataBool note key = .ok value) :
    note.frontmatter.get key = .bool value := by
  unfold metadataBool at h
  split at h
  · rename_i found hfound
    rw [hfound, Except.ok.inj h]
  · cases h

theorem metadataVersion_ok {note : ObsidianNote φ} {role : String} {version : ℤ} (h : metadataVersion note role = .ok version) :
    note.frontmatter.get "version" = .int version ∧ 0 < version := by
  unfold metadataVersion at h
  split at h
  · rename_i value hvalue
    split at h
    · cases h
    · obtain rfl := Except.ok.inj h
      exact ⟨hvalue, by omega⟩
  · cases h

theorem isCanonical_ok {note : ObsidianNote φ} (h : isCanonical note = .ok true) :
    note.frontmatter.get "canonical" = .bool true ∧ note.frontmatter.get "source_of_truth" = .bool true := by
  obtain ⟨canonical, hcanonical, h⟩ := Keyed.bind_eq_ok h
  cases canonical with
  | true => exact ⟨metadataBool_ok hcanonical, metadataBool_ok h⟩
  | false => cases h

/-- The note is a prompt in use, its index entry is current and it has a body. -/
structure Ready (env : SpecEnvironment φ) (note : ObsidianNote φ) : Prop where
  prompt : note.alexandriaType = .prompt
  active : env.casefold (pythonStrip note.status) ∈ ["active", "current"]
  indexed : note.indexStatus = .indexed
  bodied : pythonStrip note.body ≠ ""

theorem validateNoteReady_ok {note : ObsidianNote φ} {role : String} (h : validateNoteReady env note role = .ok ()) :
    Ready env note := by
  obtain ⟨⟨⟩, hprompt, h⟩ := Keyed.bind_eq_ok h
  split at h
  · cases h
  split at h
  · cases h
  split at h
  · cases h
  rename_i hactive hindexed hbody
  exact ⟨by simpa using hprompt, not_not.mp hactive, not_not.mp hindexed, hbody⟩

/-- The note declares itself the canonical source of truth, in the version. -/
structure Canonical (env : SpecEnvironment φ) (note : ObsidianNote φ) (version : ℤ) : Prop extends Ready env note where
  canonical : note.frontmatter.get "canonical" = .bool true
  sourceOfTruth : note.frontmatter.get "source_of_truth" = .bool true
  versioned : note.frontmatter.get "version" = .int version ∧ 0 < version

theorem validatePolicy_ok {note : ObsidianNote φ} {context : ManagedSpecExecutionContext} {version : ℤ}
    (h : validatePolicy env note context = .ok version) :
    Canonical env note version ∧ note.noteId = context.expectedPolicyNoteId := by
  obtain ⟨⟨⟩, hready, h⟩ := Keyed.bind_eq_ok h
  obtain ⟨_, -, h⟩ := Keyed.bind_eq_ok h
  obtain ⟨⟨⟩, -, h⟩ := Keyed.bind_eq_ok h
  obtain ⟨_, -, h⟩ := Keyed.bind_eq_ok h
  obtain ⟨⟨⟩, -, h⟩ := Keyed.bind_eq_ok h
  obtain ⟨canonical, hcanonical, h⟩ := Keyed.bind_eq_ok h
  obtain ⟨⟨⟩, hholds, h⟩ := Keyed.bind_eq_ok h
  obtain ⟨_, -, h⟩ := Keyed.bind_eq_ok h
  obtain ⟨⟨⟩, -, h⟩ := Keyed.bind_eq_ok h
  obtain ⟨_, -, h⟩ := Keyed.bind_eq_ok h
  obtain ⟨⟨⟩, -, h⟩ := Keyed.bind_eq_ok h
  obtain ⟨⟨⟩, hid, hversion⟩ := Keyed.bind_eq_ok h
  rw [requires_eq_ok.mp hholds] at hcanonical
  obtain ⟨hcanonical, hsource⟩ := isCanonical_ok hcanonical
  exact ⟨⟨validateNoteReady_ok hready, hcanonical, hsource, metadataVersion_ok hversion⟩, by simpa using hid⟩

/-- The specification names the policy. -/
def Links (note : ObsidianNote φ) (policyNoteId : String) : Prop :=
  ∃ value, note.frontmatter.get "runtime_policy_note_id" = .str value ∧ pythonStrip value = policyNoteId

theorem validateSpec_ok {note : ObsidianNote φ} {context : ManagedSpecExecutionContext} {policyNoteId workflow : String}
    {version : ℤ} (h : validateSpec env note context policyNoteId = .ok (version, workflow)) :
    Canonical env note version ∧ Links note policyNoteId ∧ normalize env workflow = normalize env context.workflow := by
  obtain ⟨⟨⟩, hready, h⟩ := Keyed.bind_eq_ok h
  obtain ⟨_, -, h⟩ := Keyed.bind_eq_ok h
  obtain ⟨⟨⟩, -, h⟩ := Keyed.bind_eq_ok h
  obtain ⟨_, -, h⟩ := Keyed.bind_eq_ok h
  obtain ⟨⟨⟩, -, h⟩ := Keyed.bind_eq_ok h
  obtain ⟨canonical, hcanonical, h⟩ := Keyed.bind_eq_ok h
  obtain ⟨⟨⟩, hholds, h⟩ := Keyed.bind_eq_ok h
  obtain ⟨linked, hlinked, h⟩ := Keyed.bind_eq_ok h
  obtain ⟨⟨⟩, hpolicy, h⟩ := Keyed.bind_eq_ok h
  obtain ⟨report, -, h⟩ := Keyed.bind_eq_ok h
  obtain ⟨⟨⟩, hworkflow, h⟩ := Keyed.bind_eq_ok h
  obtain ⟨⟨⟩, -, h⟩ := Keyed.bind_eq_ok h
  obtain ⟨found, hversion, h⟩ := Keyed.bind_eq_ok h
  obtain ⟨rfl, rfl⟩ := Prod.mk.inj (Except.ok.inj h)
  rw [requires_eq_ok.mp hholds] at hcanonical
  obtain ⟨hcanonical, hsource⟩ := isCanonical_ok hcanonical
  obtain ⟨value, hvalue, hstrip⟩ := metadataText_ok hlinked
  refine ⟨⟨validateNoteReady_ok hready, hcanonical, hsource, metadataVersion_ok hversion⟩, ⟨value, hvalue, ?_⟩, ?_⟩
  · rw [hstrip]
    simpa using hpolicy
  · simpa using hworkflow

theorem boundedBody_ok {body role pinned : String} (h : boundedBody body role = .ok pinned) :
    pinned = body ∧ body.utf8ByteSize ≤ maxPinnedBodyBytes := by
  unfold boundedBody at h
  split at h
  · cases h
  · exact ⟨(Except.ok.inj h).symm, by omega⟩

theorem contentHash_ok {note : ObsidianNote φ} {role hash : String} (h : contentHash env note role = .ok hash) :
    hash = env.lower (pythonStrip note.contentHash) ∧ hash.length = 64 ∧ ∀ c ∈ hash.toList, c ∈ hexDigits := by
  unfold contentHash at h
  simp only at h
  split at h
  · cases h
  rename_i hvalid
  obtain rfl := Except.ok.inj h
  rw [not_or, not_not] at hvalid
  exact ⟨rfl, hvalid.1, by simpa using hvalid.2⟩

theorem readExact_ok {answer : NoteRead φ} {noteId role : String} {note : ObsidianNote φ}
    (h : readExact answer noteId role = .ok note) : answer = .found note ∧ note.noteId = noteId := by
  unfold readExact at h
  cases answer with
  | found found =>
    simp only at h
    split at h
    · cases h
    · rename_i hid
      obtain rfl := Except.ok.inj h
      exact ⟨rfl, not_not.mp hid⟩
  | notFound | domainError | unavailable => cases h

/-- The note is canonical, and its id, version, digest and body are these. -/
structure Pinned (env : SpecEnvironment φ) (note : ObsidianNote φ) (noteId : String) (version : ℤ) (hash body : String) : Prop
    extends Canonical env note version where
  sameId : note.noteId = noteId
  sameHash : hash = env.lower (pythonStrip note.contentHash)
  digest : hash.length = 64 ∧ ∀ c ∈ hash.toList, c ∈ hexDigits
  sameBody : note.body = body
  bounded : body.utf8ByteSize ≤ maxPinnedBodyBytes

theorem Pinned.of_checks {note : ObsidianNote φ} {noteId : String} {version : ℤ} {hash body role role' : String}
    (hcanonical : Canonical env note version) (hid : note.noteId = noteId) (hhash : contentHash env note role = .ok hash)
    (hbody : boundedBody note.body role' = .ok body) : Pinned env note noteId version hash body := by
  obtain ⟨hsame, hdigest⟩ := contentHash_ok hhash
  obtain ⟨rfl, hbound⟩ := boundedBody_ok hbody
  exact ⟨hcanonical, hid, hsame, hdigest, rfl, hbound⟩

/-- The two notes are those of the envelope, and the specification names the policy. -/
structure Pins (env : SpecEnvironment φ) (envelope : ManagedSpecEnvelope) (policy spec : ObsidianNote φ) : Prop where
  ofPolicy : Pinned env policy envelope.policyNoteId envelope.policyVersion envelope.policyContentHash envelope.policyBody
  ofSpec : Pinned env spec envelope.specIdentity.noteId envelope.specVersion envelope.specContentHash envelope.specBody
  linked : Links spec envelope.policyNoteId

/-- The envelope of a request: it can be told from the envelope what was asked for. -/
structure EnvelopeOf (envelope : ManagedSpecEnvelope) (request : ManagedSpecPrepareRequest) : Prop where
  key : envelope.idempotencyKey = request.idempotencyKey
  spec : envelope.specIdentity = request.specIdentity
  date : envelope.logicalIdentity.date = request.logicalDate
  context : contextFromEnvelope envelope = request.executionContext
  inert : envelope.referenceOnly = true ∧ envelope.mayExpandPermissions = false ∧ envelope.mayStartUnrelatedWork = false

theorem currentEnvelope_ok {request : ManagedSpecPrepareRequest} {reads : Reads φ} {envelope : ManagedSpecEnvelope}
    (h : currentEnvelope env request reads = .ok envelope) : EnvelopeOf envelope request := by
  obtain ⟨policy, hpolicy, h⟩ := Keyed.bind_eq_ok h
  obtain ⟨spec, -, h⟩ := Keyed.bind_eq_ok h
  obtain ⟨policyVersion, -, h⟩ := Keyed.bind_eq_ok h
  obtain ⟨⟨specVersion, workflow⟩, -, h⟩ := Keyed.bind_eq_ok h
  obtain ⟨policyBody, -, h⟩ := Keyed.bind_eq_ok h
  obtain ⟨specBody, -, h⟩ := Keyed.bind_eq_ok h
  obtain ⟨policyHash, -, h⟩ := Keyed.bind_eq_ok h
  obtain ⟨specHash, -, h⟩ := Keyed.bind_eq_ok h
  obtain rfl := Except.ok.inj h
  obtain ⟨-, hid⟩ := readExact_ok hpolicy
  refine ⟨rfl, rfl, rfl, ?_, rfl, rfl, rfl⟩
  simp only [contextFromEnvelope, logicalIdentity, hid]

@[simp] theorem requiresSame_eq_ok {same : Bool} : requiresSame same = .ok () ↔ same = true := by
  unfold requiresSame
  split <;> simp_all

theorem revalidateEnvelope_ok {envelope : ManagedSpecEnvelope} {reads : Reads φ}
    (h : revalidateEnvelope env envelope reads = .ok ()) :
    ∃ policy spec, reads.policy = .found policy ∧ reads.spec = .found spec ∧ Pins env envelope policy spec := by
  obtain ⟨policy, hpolicy, h⟩ := Keyed.bind_eq_ok h
  obtain ⟨spec, hspec, h⟩ := Keyed.bind_eq_ok h
  obtain ⟨policyVersion, hpolicyVersion, h⟩ := Keyed.bind_eq_ok h
  obtain ⟨⟨specVersion, workflow⟩, hspecVersion, h⟩ := Keyed.bind_eq_ok h
  -- The comparisons, in their order.
  obtain ⟨⟨⟩, hsamePolicy, h⟩ := Keyed.bind_eq_ok h
  obtain ⟨policyHash, hpolicyHash, h⟩ := Keyed.bind_eq_ok h
  obtain ⟨⟨⟩, hsamePolicyHash, h⟩ := Keyed.bind_eq_ok h
  obtain ⟨⟨⟩, hsameSpec, h⟩ := Keyed.bind_eq_ok h
  obtain ⟨specHash, hspecHash, h⟩ := Keyed.bind_eq_ok h
  obtain ⟨⟨⟩, hsameSpecHash, h⟩ := Keyed.bind_eq_ok h
  obtain ⟨policyBody, hpolicyBody, h⟩ := Keyed.bind_eq_ok h
  obtain ⟨⟨⟩, hsamePolicyBody, h⟩ := Keyed.bind_eq_ok h
  obtain ⟨specBody, hspecBody, hsameSpecBody⟩ := Keyed.bind_eq_ok h
  simp only [requiresSame_eq_ok, decide_eq_true_eq] at hsamePolicy hsamePolicyHash hsameSpec hsameSpecHash
  simp only [requiresSame_eq_ok, decide_eq_true_eq] at hsamePolicyBody hsameSpecBody
  obtain ⟨hpolicyFound, -⟩ := readExact_ok hpolicy
  obtain ⟨hspecFound, -⟩ := readExact_ok hspec
  obtain ⟨hpolicyCanonical, -⟩ := validatePolicy_ok hpolicyVersion
  obtain ⟨hspecCanonical, hlinked, -⟩ := validateSpec_ok hspecVersion
  rw [hsamePolicy.2] at hpolicyCanonical
  rw [hsameSpec.2] at hspecCanonical
  rw [hsamePolicy.1] at hlinked
  rw [hsamePolicyHash] at hpolicyHash
  rw [hsameSpecHash] at hspecHash
  rw [hsamePolicyBody] at hpolicyBody
  rw [hsameSpecBody] at hspecBody
  exact ⟨policy, spec, hpolicyFound, hspecFound, .of_checks hpolicyCanonical hsamePolicy.1 hpolicyHash hpolicyBody,
    .of_checks hspecCanonical hsameSpec.1 hspecHash hspecBody, hlinked⟩

/-! ## What one call does -/

def Verified (output : ManagedSpecOutputWriteResult) : Prop :=
  output.storageDurable = true ∧ output.readbackVerified = true ∧ output.duplicateSafe = true

theorem requireVerifiedOutput_ok {output : ManagedSpecOutputWriteResult} (h : requireVerifiedOutput output = .ok ()) :
    Verified output := by
  unfold requireVerifiedOutput at h
  split at h
  · cases h
  split at h
  · cases h
  rename_i hdurable hsafe
  simp only [Bool.or_eq_true, Bool.not_eq_true', not_or, Bool.not_eq_false] at hdurable hsafe
  exact ⟨hdurable.1, hdurable.2, hsafe⟩

/-- The checkpoint of a key: its envelope is the one that was asked for, and what is recorded of an output is all of it. -/
structure Kept (env : SpecEnvironment φ) (key : String) (checkpoint : ManagedSpecCheckpoint) : Prop where
  ofKey : checkpoint.idempotencyKey = key
  digest : checkpoint.envelopeHash = managedSpecEnvelopeHash env checkpoint.envelope
  asked : ∃ request, EnvelopeOf checkpoint.envelope request ∧ request.idempotencyKey = key ∧
    env.isIsoDate request.logicalDate = true ∧ checkpoint.prepareRequestHash = managedSpecPrepareRequestHash env request
  pending : checkpoint.output = none → checkpoint.outputRequest = none ∧ checkpoint.completionRequestHash = none
  closed : ∀ output, checkpoint.output = some output → Verified output ∧ ∃ request, request.idempotencyKey = key ∧
    checkpoint.outputRequest = some (outputRequest env checkpoint request) ∧
    checkpoint.completionRequestHash = some (managedSpecCompletionRequestHash env request)

/-- What may follow a checkpoint: the same envelope, and the same output request once there is an output. -/
structure Settled (a b : ManagedSpecCheckpoint) : Prop where
  fence : b.prepareRequestHash = a.prepareRequestHash
  envelope : b.envelope = a.envelope
  envelopeHash : b.envelopeHash = a.envelopeHash
  output : a.output.isSome = true → b.output.isSome = true ∧ b.outputRequest = a.outputRequest ∧
    b.completionRequestHash = a.completionRequestHash

instance : Std.Refl Settled := ⟨fun _ => ⟨rfl, rfl, rfl, fun h => ⟨h, rfl, rfl⟩⟩⟩

instance : IsTrans ManagedSpecCheckpoint Settled where
  trans a b c h h' := by
    refine ⟨h'.fence.trans h.fence, h'.envelope.trans h.envelope, h'.envelopeHash.trans h.envelopeHash, fun houtput => ?_⟩
    obtain ⟨hb, hrequest, hhash⟩ := h.output houtput
    obtain ⟨hc, hrequest', hhash'⟩ := h'.output hb
    exact ⟨hc, hrequest'.trans hrequest, hhash'.trans hhash⟩

/-- A prepare leaves the store as it is, or admits the checkpoint of a new key; what it returns is the checkpoint of its key. -/
theorem prepareSerialized_spec (env : SpecEnvironment φ) (checkpoints : Checkpoints) (request : ManagedSpecPrepareRequest)
    (reads : Reads φ) (outcome : SaveOutcome) :
    ((prepareSerialized env checkpoints request reads outcome).1 = checkpoints ∨
      ∃ envelope, EnvelopeOf envelope request ∧ env.isIsoDate request.logicalDate = true ∧
        checkpoints request.idempotencyKey = none ∧ (prepareSerialized env checkpoints request reads outcome).1 =
          Function.update checkpoints request.idempotencyKey (some (preparedCheckpoint env request envelope))) ∧
    ∀ result, (prepareSerialized env checkpoints request reads outcome).2 = .ok result →
      ∃ checkpoint, (prepareSerialized env checkpoints request reads outcome).1 request.idempotencyKey = some checkpoint ∧
        checkpoint.prepareRequestHash = managedSpecPrepareRequestHash env request ∧
        result.envelope = checkpoint.envelope ∧ result.envelopeHash = checkpoint.envelopeHash := by
  unfold prepareSerialized
  cases hdate : validateLogicalDate env request.logicalDate with
  | error error => exact ⟨.inl rfl, fun result h => by cases h⟩
  | ok _ =>
    have hiso : env.isIsoDate request.logicalDate = true := by
      unfold validateLogicalDate at hdate
      split at hdate
      · assumption
      · cases hdate
    cases hfound : checkpoints request.idempotencyKey with
    | some existing =>
      refine ⟨.inl rfl, fun result h => ⟨existing, hfound, ?_⟩⟩
      have h : (replayPrepare env request reads existing).mapError CallError.managed = .ok result := h
      cases hreplay : replayPrepare env request reads existing with
      | error error =>
        rw [hreplay] at h
        cases h
      | ok replayed =>
        rw [hreplay] at h
        obtain rfl := Except.ok.inj h
        obtain ⟨⟨⟩, hsame, hreplay⟩ := Keyed.bind_eq_ok hreplay
        obtain ⟨envelope, -, hreplay⟩ := Keyed.bind_eq_ok hreplay
        split at hreplay
        · cases hreplay
        obtain rfl := Except.ok.inj hreplay
        unfold requireSamePrepareRequest at hsame
        split at hsame
        · cases hsame
        rename_i hhash
        exact ⟨not_not.mp hhash, rfl, rfl⟩
    | none =>
      cases henvelope : currentEnvelope env request reads with
      | error error => exact ⟨.inl rfl, fun result h => by cases h⟩
      | ok envelope =>
        have hof := currentEnvelope_ok henvelope
        have hadmitted : checkpoints.saveIfAbsent (preparedCheckpoint env request envelope) outcome =
            (true, checkpoints.save (preparedCheckpoint env request envelope) outcome) := by
          unfold Checkpoints.saveIfAbsent
          rw [if_neg]
          simp [preparedCheckpoint, hfound]
        simp only [hadmitted, Bool.not_true, Bool.false_eq_true, if_false]
        refine ⟨?_, fun result h => ?_⟩
        · cases outcome with
          | lost => exact .inl rfl
          | saved | raised => exact .inr ⟨envelope, hof, hiso, trivial, rfl⟩
        · cases outcome with
          | lost | raised => cases h
          | saved =>
            obtain rfl := Except.ok.inj h
            exact ⟨_, Function.update_self _ _ _, rfl, rfl, rfl⟩

/-- What a completion that reaches the writer is about. -/
structure Delivers (env : SpecEnvironment φ) (checkpoints : Checkpoints) (request : ManagedSpecCompleteRequest) (reads : Reads φ)
    (checkpoint : ManagedSpecCheckpoint) (write : ManagedSpecOutputWrite) : Prop where
  found : checkpoints request.idempotencyKey = some checkpoint
  named : request.preparedEnvelopeHash = checkpoint.envelopeHash
  revalidated : revalidateEnvelope env checkpoint.envelope reads = .ok ()
  writes : (checkpoint.output.isSome = true ∧ checkpoint.outputRequest = some write ∧
      checkpoint.completionRequestHash = some (managedSpecCompletionRequestHash env request)) ∨
    (checkpoint.output = none ∧ write = outputRequest env checkpoint request)

def recorded (env : SpecEnvironment φ) (checkpoint : ManagedSpecCheckpoint) (request : ManagedSpecCompleteRequest)
    (write : ManagedSpecOutputWrite) (output : ManagedSpecOutputWriteResult) : ManagedSpecCheckpoint :=
  { checkpoint with
    outputRequest := some write
    completionRequestHash := some (managedSpecCompletionRequestHash env request)
    output := some output }

theorem deliver_spec {checkpoints : Checkpoints} {write : ManagedSpecOutputWrite}
    {answer : Except WriterFault ManagedSpecOutputWriteResult} {outcome : SaveOutcome} {onFault : WriterFault → CallError}
    {status : ManagedSpecCompletionStatus} {record : ManagedSpecOutputWriteResult → ManagedSpecCheckpoint} {c : Completion}
    (h : deliver checkpoints write answer outcome onFault status record = c) :
    c.delegated = some write ∧ (c.checkpoints = checkpoints ∨ ∃ output, Verified output ∧
      c.checkpoints = Function.update checkpoints (record output).idempotencyKey (some (record output))) ∧
    ∀ result, c.result = .ok result → Verified result.output ∧ result.envelope = (record result.output).envelope ∧
      result.envelopeHash = (record result.output).envelopeHash ∧ c.checkpoints =
        Function.update checkpoints (record result.output).idempotencyKey (some (record result.output)) := by
  subst h
  unfold deliver
  cases answer with
  | error fault => exact ⟨rfl, .inl rfl, fun result h => by cases h⟩
  | ok output =>
    cases hverified : requireVerifiedOutput output with
    | error error =>
      simp only [hverified]
      exact ⟨trivial, .inl trivial, fun result h => by cases h⟩
    | ok _ =>
      have houtput := requireVerifiedOutput_ok hverified
      simp only [hverified]
      refine ⟨trivial, ?_, fun result h => ?_⟩
      · cases outcome with
        | lost => exact .inl rfl
        | saved | raised => exact .inr ⟨output, houtput, rfl⟩
      · cases outcome with
        | lost | raised => cases h
        | saved =>
          obtain rfl := Except.ok.inj h
          exact ⟨houtput, rfl, rfl, rfl⟩

/-- A completion is turned away, or delegates one request and records its output under it. -/
theorem completeSerialized_spec {checkpoints : Checkpoints} {request : ManagedSpecCompleteRequest} {reads : Reads φ}
    {answer : Except WriterFault ManagedSpecOutputWriteResult} {outcome : SaveOutcome} {c : Completion}
    (h : completeSerialized env checkpoints request reads answer outcome = c) :
    (c.delegated = none ∧ c.checkpoints = checkpoints ∧ ∀ result, c.result ≠ .ok result) ∨
    ∃ checkpoint write, Delivers env checkpoints request reads checkpoint write ∧ c.delegated = some write ∧
      (c.checkpoints = checkpoints ∨ ∃ output, Verified output ∧ c.checkpoints =
        Function.update checkpoints checkpoint.idempotencyKey (some (recorded env checkpoint request write output))) ∧
      ∀ result, c.result = .ok result → Verified result.output ∧ result.envelope = checkpoint.envelope ∧
        result.envelopeHash = checkpoint.envelopeHash ∧ c.checkpoints = Function.update checkpoints
          checkpoint.idempotencyKey (some (recorded env checkpoint request write result.output)) := by
  unfold completeSerialized at h
  cases hfound : checkpoints request.idempotencyKey with
  | none =>
    rw [hfound] at h
    subst h
    exact .inl ⟨rfl, rfl, fun result h => by cases h⟩
  | some checkpoint =>
    rw [hfound] at h
    simp only at h
    split at h
    · subst h
      exact .inl ⟨rfl, rfl, fun result h => by cases h⟩
    rename_i hnamed
    have hnamed := not_not.mp hnamed
    split at h
    · rename_i houtput
      unfold replayCompletion at h
      split at h
      · subst h
        exact .inl ⟨rfl, rfl, fun result h => by cases h⟩
      rename_i hhash
      have hhash := not_not.mp hhash
      cases hvalid : revalidateEnvelope env checkpoint.envelope reads with
      | error error =>
        rw [hvalid] at h
        subst h
        exact .inl ⟨rfl, rfl, fun result h => by cases h⟩
      | ok _ =>
        rw [hvalid] at h
        cases hrequest : checkpoint.outputRequest with
        | none =>
          simp only [hrequest] at h
          subst h
          exact .inl ⟨rfl, rfl, fun result h => by cases h⟩
        | some write =>
          simp only [hrequest] at h
          have hrecord : (fun output => { checkpoint with output := some output }) = recorded env checkpoint request write := by
            funext output
            unfold recorded
            rw [← hrequest, ← hhash]
          rw [hrequest] at hrecord
          rw [hrecord] at h
          exact .inr ⟨checkpoint, write, ⟨hfound, hnamed, hvalid, .inl ⟨houtput, hrequest, hhash⟩⟩, deliver_spec h⟩
    · rename_i houtput
      have hnone : checkpoint.output = none := Option.not_isSome_iff_eq_none.mp houtput
      unfold firstCompletion at h
      cases hvalid : revalidateEnvelope env checkpoint.envelope reads with
      | error error =>
        rw [hvalid] at h
        subst h
        exact .inl ⟨rfl, rfl, fun result h => by cases h⟩
      | ok _ =>
        rw [hvalid] at h
        exact .inr ⟨checkpoint, _, ⟨hfound, hnamed, hvalid, .inr ⟨hnone, rfl⟩⟩, deliver_spec h⟩

/-! ## What holds in every run -/

/-- A request to the writer comes from the checkpoint of its key, whose two notes were read in the same call. -/
def Delegated (env : SpecEnvironment φ) (checkpoints : Checkpoints) (d : Delegation φ) : Prop :=
  ∃ checkpoint, checkpoints d.idempotencyKey = some checkpoint ∧ (∃ request, d.write = outputRequest env checkpoint request) ∧
    ∃ policy spec, d.reads.policy = .found policy ∧ d.reads.spec = .found spec ∧ Pins env checkpoint.envelope policy spec

/-- An answer shows the checkpoint of its key, and repeats the request that the checkpoint was made for. -/
def Answered (env : SpecEnvironment φ) (checkpoints : Checkpoints) : Answer → Prop
  | .prepared request result => ∃ checkpoint, checkpoints request.idempotencyKey = some checkpoint ∧
      checkpoint.prepareRequestHash = managedSpecPrepareRequestHash env request ∧ result.envelope = checkpoint.envelope ∧
      result.envelopeHash = checkpoint.envelopeHash
  | .completed request result => ∃ checkpoint, checkpoints request.idempotencyKey = some checkpoint ∧
      checkpoint.output.isSome = true ∧ checkpoint.completionRequestHash = some (managedSpecCompletionRequestHash env request) ∧
      Verified result.output ∧ result.envelope = checkpoint.envelope ∧ result.envelopeHash = checkpoint.envelopeHash

theorem Delegated.grows {checkpoints after : Checkpoints} {d : Delegation φ} (h : Delegated env checkpoints d)
    (hgrows : Grows Settled checkpoints after) : Delegated env after d := by
  obtain ⟨checkpoint, hfound, ⟨request, hwrite⟩, policy, spec, hpolicy, hspec, hpins⟩ := h
  obtain ⟨next, hnext, hsettled⟩ := hgrows _ _ hfound
  refine ⟨next, hnext, ⟨request, ?_⟩, policy, spec, hpolicy, hspec, hsettled.envelope ▸ hpins⟩
  rw [hwrite]
  unfold outputRequest
  rw [hsettled.envelope, hsettled.envelopeHash]

theorem Answered.grows {checkpoints after : Checkpoints} {answer : Answer} (h : Answered env checkpoints answer)
    (hgrows : Grows Settled checkpoints after) : Answered env after answer := by
  cases answer with
  | prepared request result =>
    obtain ⟨checkpoint, hfound, hhash, henvelope, hdigest⟩ := h
    obtain ⟨next, hnext, hsettled⟩ := hgrows _ _ hfound
    exact ⟨next, hnext, hsettled.fence.trans hhash, henvelope.trans hsettled.envelope.symm,
      hdigest.trans hsettled.envelopeHash.symm⟩
  | completed request result =>
    obtain ⟨checkpoint, hfound, houtput, hhash, hverified, henvelope, hdigest⟩ := h
    obtain ⟨next, hnext, hsettled⟩ := hgrows _ _ hfound
    obtain ⟨hnextOutput, -, hnextHash⟩ := hsettled.output houtput
    exact ⟨next, hnext, hnextOutput, hnextHash.trans hhash, hverified, henvelope.trans hsettled.envelope.symm,
      hdigest.trans hsettled.envelopeHash.symm⟩

theorem eq_ok_of_toOption {ε α : Type} {r : Except ε α} {a : α} (h : r.toOption = some a) : r = .ok a := by
  cases r with
  | error => cases h
  | ok => exact congrArg Except.ok (Option.some.inj h)

structure Consistent (env : SpecEnvironment φ) (s : SpecSystem φ) : Prop where
  kept : ∀ key checkpoint, s.checkpoints key = some checkpoint → Kept env key checkpoint
  delegated : ∀ d ∈ s.delegations, Delegated env s.checkpoints d
  answered : ∀ answer ∈ s.answers, Answered env s.checkpoints answer

theorem Consistent.start : Consistent env (SpecSystem.start φ) := by
  constructor <;> simp [SpecSystem.start]

/-- The checkpoint that a first prepare admits. -/
theorem preparedCheckpoint_kept {request : ManagedSpecPrepareRequest} {envelope : ManagedSpecEnvelope}
    (hof : EnvelopeOf envelope request) (hdate : env.isIsoDate request.logicalDate = true) :
    Kept env request.idempotencyKey (preparedCheckpoint env request envelope) where
  ofKey := rfl
  digest := rfl
  asked := ⟨request, hof, rfl, hdate, rfl⟩
  pending _ := ⟨rfl, rfl⟩
  closed output h := by cases h

/-- The checkpoint that records an output follows the one it is made from. -/
theorem Delivers.recorded_kept {checkpoints : Checkpoints} {request : ManagedSpecCompleteRequest} {reads : Reads φ}
    {checkpoint : ManagedSpecCheckpoint} {write : ManagedSpecOutputWrite} {output : ManagedSpecOutputWriteResult}
    (h : Delivers env checkpoints request reads checkpoint write) (hkept : Kept env request.idempotencyKey checkpoint)
    (hverified : Verified output) :
    Kept env request.idempotencyKey (recorded env checkpoint request write output) ∧
      Settled checkpoint (recorded env checkpoint request write output) := by
  have hwrite : ∃ first, first.idempotencyKey = request.idempotencyKey ∧ write = outputRequest env checkpoint first ∧
      managedSpecCompletionRequestHash env request = managedSpecCompletionRequestHash env first := by
    obtain ⟨houtput, hsame, hhash⟩ | ⟨-, hsame⟩ := h.writes
    · obtain ⟨before, hbefore⟩ := Option.isSome_iff_exists.mp houtput
      obtain ⟨-, first, hkey, hfirst, hfirstHash⟩ := hkept.closed before hbefore
      rw [hsame] at hfirst
      rw [hhash] at hfirstHash
      exact ⟨first, hkey, Option.some.inj hfirst, Option.some.inj hfirstHash⟩
    · exact ⟨request, rfl, hsame, rfl⟩
  obtain ⟨first, hkey, hfirst, hhash⟩ := hwrite
  constructor
  · refine ⟨hkept.ofKey, hkept.digest, hkept.asked, fun hnone => (by cases hnone), fun found hfound => ?_⟩
    obtain rfl := Option.some.inj hfound
    exact ⟨hverified, first, hkey, congrArg some hfirst, congrArg some hhash⟩
  · refine ⟨rfl, rfl, rfl, fun houtput => ⟨rfl, ?_⟩⟩
    obtain ⟨-, hsame, hsameHash⟩ | ⟨hnone, -⟩ := h.writes
    · exact ⟨hsame.symm, hsameHash.symm⟩
    · rw [hnone] at houtput
      cases houtput

/-- The store after one call is consistent and has grown. -/
theorem Consistent.store {s : SpecSystem φ} {after : Checkpoints} {key : String} {checkpoint : ManagedSpecCheckpoint}
    (h : Consistent env s) (hafter : after = Function.update s.checkpoints key (some checkpoint))
    (hkept : Kept env key checkpoint) (hsettled : ∀ before, s.checkpoints key = some before → Settled before checkpoint) :
    (∀ key checkpoint, after key = some checkpoint → Kept env key checkpoint) ∧ Grows Settled s.checkpoints after := by
  subst hafter
  refine ⟨fun other found hfound => ?_, .update hsettled⟩
  rw [Function.update_apply] at hfound
  split at hfound
  · rename_i hother
    obtain rfl := Option.some.inj hfound
    rw [hother]
    exact hkept
  · exact h.kept other found hfound

/-- What one call adds to the history. -/
structure Continues (s t : SpecSystem φ) : Prop where
  grows : Grows Settled s.checkpoints t.checkpoints
  repeats : ∃ new, t.delegations = s.delegations ++ new ∧ ∀ d ∈ new, ∀ checkpoint,
    s.checkpoints d.idempotencyKey = some checkpoint → checkpoint.output.isSome = true → checkpoint.outputRequest = some d.write
  answers : s.answers <+: t.answers

theorem Consistent.prepare {s : SpecSystem φ} (h : Consistent env s) (request : ManagedSpecPrepareRequest) (reads : Reads φ)
    (outcome : SaveOutcome) {t : SpecSystem φ} (hstep : execute env s (.prepare request reads outcome) = some t) :
    Consistent env t ∧ Continues s t := by
  obtain rfl := Option.some.inj hstep
  obtain ⟨hstore, hresult⟩ := prepareSerialized_spec env s.checkpoints request reads outcome
  have hafter : (∀ key checkpoint, (prepareSerialized env s.checkpoints request reads outcome).1 key = some checkpoint →
      Kept env key checkpoint) ∧ Grows Settled s.checkpoints (prepareSerialized env s.checkpoints request reads outcome).1 := by
    obtain hsame | ⟨envelope, hof, hdate, hnone, hupdate⟩ := hstore
    · rw [hsame]
      exact ⟨h.kept, .refl _⟩
    · refine h.store hupdate (preparedCheckpoint_kept hof hdate) fun before hbefore => ?_
      rw [hnone] at hbefore
      cases hbefore
  obtain ⟨hkept, hgrows⟩ := hafter
  refine ⟨⟨hkept, fun d hd => (h.delegated d hd).grows hgrows, fun answer hanswer => ?_⟩,
    hgrows, ⟨[], (List.append_nil _).symm, fun d hd => by cases hd⟩, List.prefix_append _ _⟩
  obtain hanswer | hanswer := List.mem_append.mp hanswer
  · exact (h.answered answer hanswer).grows hgrows
  · obtain ⟨result, hok, rfl⟩ := Option.map_eq_some_iff.mp (Option.mem_toList.mp hanswer)
    exact hresult result (eq_ok_of_toOption hok)

theorem Consistent.complete {s : SpecSystem φ} (h : Consistent env s) (request : ManagedSpecCompleteRequest) (reads : Reads φ)
    (answer : Except WriterFault ManagedSpecOutputWriteResult) (outcome : SaveOutcome) {t : SpecSystem φ}
    (hstep : execute env s (.complete request reads answer outcome) = some t) : Consistent env t ∧ Continues s t := by
  obtain rfl := Option.some.inj hstep
  obtain ⟨hnone, hsame, hresult⟩ | ⟨checkpoint, write, hdelivers, hwrite, hstore, hresult⟩ :=
    completeSerialized_spec (rfl : completeSerialized env s.checkpoints request reads answer outcome = _)
  · have hno : (completeSerialized env s.checkpoints request reads answer outcome).result.toOption = none := by
      cases hcase : (completeSerialized env s.checkpoints request reads answer outcome).result with
      | error => rfl
      | ok result => exact absurd hcase (hresult result)
    simp only [hnone, hsame, hno, Option.map_none, Option.toList_none, List.append_nil]
    exact ⟨h, .refl _, ⟨[], (List.append_nil _).symm, fun d hd => by cases hd⟩, List.prefix_rfl⟩
  · have hold := h.kept _ _ hdelivers.found
    have hafter : (∀ key found, (completeSerialized env s.checkpoints request reads answer outcome).checkpoints key = some found →
        Kept env key found) ∧
        Grows Settled s.checkpoints (completeSerialized env s.checkpoints request reads answer outcome).checkpoints := by
      obtain hsame | ⟨output, hverified, hupdate⟩ := hstore
      · rw [hsame]
        exact ⟨h.kept, .refl _⟩
      · obtain ⟨hkept, hsettled⟩ := hdelivers.recorded_kept hold hverified
        refine h.store hupdate (hold.ofKey ▸ hkept) fun before hbefore => ?_
        rw [hold.ofKey, hdelivers.found] at hbefore
        exact Option.some.inj hbefore ▸ hsettled
    obtain ⟨hkept, hgrows⟩ := hafter
    have hdelegated : Delegated env s.checkpoints ⟨request.idempotencyKey, reads, write⟩ := by
      obtain ⟨policy, spec, hpolicy, hspec, hpins⟩ := revalidateEnvelope_ok hdelivers.revalidated
      refine ⟨checkpoint, hdelivers.found, ?_, policy, spec, hpolicy, hspec, hpins⟩
      obtain ⟨houtput, hsame, -⟩ | ⟨-, hsame⟩ := hdelivers.writes
      · obtain ⟨before, hbefore⟩ := Option.isSome_iff_exists.mp houtput
        obtain ⟨-, first, -, hfirst, -⟩ := hold.closed before hbefore
        exact ⟨first, Option.some.inj (hsame.symm.trans hfirst)⟩
      · exact ⟨request, hsame⟩
    refine ⟨⟨hkept, fun d hd => ?_, fun found hfound => ?_⟩, hgrows, ⟨[⟨request.idempotencyKey, reads, write⟩], ?_, ?_⟩,
      List.prefix_append _ _⟩
    · simp only [hwrite, Option.map_some, Option.toList_some] at hd
      obtain hd | hd := List.mem_append.mp hd
      · exact (h.delegated d hd).grows hgrows
      · obtain rfl := List.mem_singleton.mp hd
        exact hdelegated.grows hgrows
    · obtain hfound | hfound := List.mem_append.mp hfound
      · exact (h.answered found hfound).grows hgrows
      · obtain ⟨result, hok, rfl⟩ := Option.map_eq_some_iff.mp (Option.mem_toList.mp hfound)
        obtain ⟨hverified, henvelope, hdigest, hupdate⟩ := hresult result (eq_ok_of_toOption hok)
        refine ⟨recorded env checkpoint request write result.output, ?_, rfl, rfl, hverified, henvelope, hdigest⟩
        show (completeSerialized env s.checkpoints request reads answer outcome).checkpoints request.idempotencyKey = _
        rw [hupdate, hold.ofKey, Function.update_self]
    · simp only [hwrite, Option.map_some, Option.toList_some]
    · intro d hd found hfound houtput
      obtain rfl := List.mem_singleton.mp hd
      rw [hdelivers.found] at hfound
      obtain rfl := Option.some.inj hfound
      obtain ⟨-, hsame, -⟩ | ⟨hnone, -⟩ := hdelivers.writes
      · exact hsame
      · rw [hnone] at houtput
        cases houtput

theorem Consistent.step {s t : SpecSystem φ} (h : Consistent env s) {call : SpecCall φ} (hstep : execute env s call = some t) :
    Consistent env t ∧ Continues s t := by
  cases call with
  | prepare request reads outcome => exact h.prepare request reads outcome hstep
  | complete request reads answer outcome => exact h.complete request reads answer outcome hstep

instance : Std.Refl (Continues (φ := φ)) :=
  ⟨fun _ => ⟨.refl _, ⟨[], (List.append_nil _).symm, fun d hd => by cases hd⟩, List.prefix_rfl⟩⟩

instance : IsTrans (SpecSystem φ) Continues where
  trans s t u h h' := by
    obtain ⟨new, hnew, hrepeats⟩ := h.repeats
    obtain ⟨new', hnew', hrepeats'⟩ := h'.repeats
    refine ⟨h.grows.trans h'.grows, ⟨new ++ new', by rw [hnew', hnew, List.append_assoc],
      fun d hd checkpoint hfound houtput => ?_⟩, h.answers.trans h'.answers⟩
    obtain hd | hd := List.mem_append.mp hd
    · exact hrepeats d hd checkpoint hfound houtput
    · obtain ⟨next, hnext, hsettled⟩ := h.grows _ _ hfound
      obtain ⟨hnextOutput, hsame, -⟩ := hsettled.output houtput
      exact hsame ▸ hrepeats' d hd next hnext hnextOutput

theorem Consistent.run {s t : SpecSystem φ} (h : Consistent env s) (hrun : Run.Runs (execute env) s t) :
    Consistent env t ∧ Continues s t :=
  of_guarded (fun _ _ _ hs _ hstep => hs.step hstep) hrun h

/-! ## The executions of one key -/

namespace Answer

def key : Answer → String
  | .prepared request _ => request.idempotencyKey
  | .completed request _ => request.idempotencyKey

def envelope : Answer → ManagedSpecEnvelope
  | .prepared _ result => result.envelope
  | .completed _ result => result.envelope

def envelopeHash : Answer → String
  | .prepared _ result => result.envelopeHash
  | .completed _ result => result.envelopeHash

end Answer

/-- All answers for one key show one envelope; they were given to one prepare input and to one output. -/
structure Agreed (env : SpecEnvironment φ) (s : SpecSystem φ) : Prop where
  envelopes : ∀ a ∈ s.answers, ∀ b ∈ s.answers, a.key = b.key → a.envelope = b.envelope ∧ a.envelopeHash = b.envelopeHash
  prepares : ∀ request result request' result', .prepared request result ∈ s.answers → .prepared request' result' ∈ s.answers →
    request.idempotencyKey = request'.idempotencyKey →
      managedSpecPrepareRequestHash env request = managedSpecPrepareRequestHash env request'
  completions : ∀ request result request' result', .completed request result ∈ s.answers →
    .completed request' result' ∈ s.answers → request.idempotencyKey = request'.idempotencyKey →
      managedSpecCompletionRequestHash env request = managedSpecCompletionRequestHash env request'

theorem Answered.shows {checkpoints : Checkpoints} {answer : Answer} (h : Answered env checkpoints answer) :
    ∃ checkpoint, checkpoints answer.key = some checkpoint ∧ answer.envelope = checkpoint.envelope ∧
      answer.envelopeHash = checkpoint.envelopeHash := by
  cases answer with
  | prepared request result =>
    obtain ⟨checkpoint, hfound, -, henvelope, hdigest⟩ := h
    exact ⟨checkpoint, hfound, henvelope, hdigest⟩
  | completed request result =>
    obtain ⟨checkpoint, hfound, -, -, -, henvelope, hdigest⟩ := h
    exact ⟨checkpoint, hfound, henvelope, hdigest⟩

theorem Consistent.agreed {s : SpecSystem φ} (h : Consistent env s) : Agreed env s where
  envelopes a ha b hb hkey := by
    obtain ⟨checkpoint, hfound, henvelope, hdigest⟩ := (h.answered a ha).shows
    obtain ⟨other, hother, henvelope', hdigest'⟩ := (h.answered b hb).shows
    rw [hkey, hother] at hfound
    obtain rfl := Option.some.inj hfound
    exact ⟨henvelope.trans henvelope'.symm, hdigest.trans hdigest'.symm⟩
  prepares request result request' result' ha hb hkey := by
    obtain ⟨checkpoint, hfound, hhash, -⟩ := h.answered _ ha
    obtain ⟨other, hother, hhash', -⟩ := h.answered _ hb
    rw [hkey, hother] at hfound
    obtain rfl := Option.some.inj hfound
    exact hhash.symm.trans hhash'
  completions request result request' result' ha hb hkey := by
    obtain ⟨checkpoint, hfound, -, hhash, -⟩ := h.answered _ ha
    obtain ⟨other, hother, -, hhash', -⟩ := h.answered _ hb
    rw [hkey, hother] at hfound
    obtain rfl := Option.some.inj hfound
    exact Option.some.inj (hhash.symm.trans hhash')

def plainEnvironment : SpecEnvironment Unit where
  isIsoDate date := date = "2026-05-01"
  casefold := id
  lower := id
  digest payload := toString payload.length

def sampleNote (noteId status body hash : String) (frontmatter : JsonObject Unit) : ObsidianNote Unit where
  noteId := noteId
  relativePath := noteId ++ ".md"
  alexandriaType := .prompt
  title := noteId
  status := status
  tags := []
  project := none
  source := none
  contentHash := hash
  sourceHash := ""
  frontmatter := frontmatter
  body := body
  modifiedAt := ""
  indexStatus := .indexed

def samplePolicy : ObsidianNote Unit :=
  sampleNote "policy" "active" "Read only." "aaaaaaaaaaaaaaaaaaaaaaaaaaaaaaaaaaaaaaaaaaaaaaaaaaaaaaaaaaaaaaaa"
    [("document_type", .str "policy"), ("policy_kind", .str "scheduler-runtime"), ("canonical", .bool true),
      ("source_of_truth", .bool true), ("identity_model", .str "note_id_only"), ("runtime_selector", .str "note_id"),
      ("version", .int 1)]

def sampleSpec : ObsidianNote Unit :=
  sampleNote "spec" "current" "Report." "bbbbbbbbbbbbbbbbbbbbbbbbbbbbbbbbbbbbbbbbbbbbbbbbbbbbbbbbbbbbbbbb"
    [("document_type", .str "execution_prompt"), ("prompt_role", .str "execution"), ("canonical", .bool true),
      ("source_of_truth", .bool true), ("runtime_policy_note_id", .str "policy"), ("report", .str "daily"), ("version", .int 2)]

def sampleReads : Reads Unit := ⟨.found samplePolicy, .found sampleSpec⟩

def samplePrepare : ManagedSpecPrepareRequest where
  specIdentity := ⟨"spec", rfl⟩
  logicalDate := "2026-05-01"
  idempotencyKey := "k"
  executionContext := ⟨"alexandria", "daily", "vault", none, "policy"⟩
  dated := rfl
  keyed := rfl
  contextNamed := by
    unfold ManagedSpecExecutionContext.Named
    decide

def sampleComplete : ManagedSpecCompleteRequest where
  idempotencyKey := "k"
  preparedEnvelopeHash := "14"
  outputTitle := "Report"
  outputBody := "Done."
  expectedOutputContentHash := none
  filled := by decide

def sampleOutput : ManagedSpecOutputWriteResult := ⟨"report", "report.md", "r", true, true, true⟩

/-- A prepare, a completion whose save raises after the file is replaced, and its retry. -/
def sampleCalls : List (SpecCall Unit) :=
  [.prepare samplePrepare sampleReads .saved, .complete sampleComplete sampleReads (.ok sampleOutput) .raised,
    .complete sampleComplete sampleReads (.ok sampleOutput) .saved]

theorem sampleCalls_run : ∃ s, Run.Runs (execute plainEnvironment) (.start Unit) s ∧
    s.delegations.length = 2 ∧ s.answers.length = 2 := by
  have hend : (Run.exec (execute plainEnvironment) (.start Unit) sampleCalls).map (fun s =>
      (s.delegations.length, s.answers.length)) = some (2, 2) := by decide +kernel
  obtain ⟨s, hs, hlengths⟩ := Option.map_eq_some_iff.mp hend
  obtain ⟨hdelegations, hanswers⟩ := Prod.ext_iff.mp hlengths
  exact ⟨s, Run.Runs.of_exec sampleCalls hs, hdelegations, hanswers⟩

/-- Whatever is read, answered and saved, a key keeps its envelope, and once it has an output only that output is requested. -/
theorem executions_settle {s t : SpecSystem φ} (hreached : Run.Runs (execute env) (.start φ) s)
    (hrun : Run.Runs (execute env) s t) : Continues s t ∧ Agreed env t := by
  obtain ⟨hs, -⟩ := Consistent.start.run hreached
  obtain ⟨ht, hcontinues⟩ := hs.run hrun
  exact ⟨hcontinues, ht.agreed⟩

theorem executions_settle_sample : ∃ s : SpecSystem Unit, s.delegations.length = 2 ∧ s.answers.length = 2 ∧
    Continues (.start Unit) s ∧ Agreed plainEnvironment s := by
  obtain ⟨s, hrun, hdelegations, hanswers⟩ := sampleCalls_run
  exact ⟨s, hdelegations, hanswers, executions_settle .refl hrun⟩

/-- The request carries what the envelope pins, under the digest of the envelope. -/
structure Carries (env : SpecEnvironment φ) (envelope : ManagedSpecEnvelope) (write : ManagedSpecOutputWrite) : Prop where
  output : write.idempotencyKey = outputIdempotencyKey env envelope ∧ write.logicalIdentity = envelope.logicalIdentity
  policy : write.policyNoteId = envelope.policyNoteId ∧ write.policyVersion = envelope.policyVersion ∧
    write.policyContentHash = envelope.policyContentHash
  spec : write.specNoteId = envelope.specIdentity.noteId ∧ write.specVersion = envelope.specVersion ∧
    write.specContentHash = envelope.specContentHash
  digest : write.preparedEnvelopeHash = managedSpecEnvelopeHash env envelope

/-- The request of a delegation is pinned to two canonical notes, the specification linked to the policy, both as they were read
in the call itself. -/
structure PinnedDelegation (env : SpecEnvironment φ) (d : Delegation φ) (envelope : ManagedSpecEnvelope)
    (policy spec : ObsidianNote φ) : Prop where
  reads : d.reads.policy = .found policy ∧ d.reads.spec = .found spec
  pins : Pins env envelope policy spec
  carries : Carries env envelope d.write
  dated : env.isIsoDate d.write.logicalIdentity.date = true
  inert : envelope.referenceOnly = true ∧ envelope.mayExpandPermissions = false ∧ envelope.mayStartUnrelatedWork = false

end Runs

end Alexandria.ManagedSpec
