import Alexandria.Compacts.Properties

/-! # The round trip of a compact

A compact comes back from its note as it was when every property is on one line: but for a project that is a list to the
reader, the hash of a source that is blank or has blanks around it, and the line feeds at the end of the body. Texts with a
line boundary in them do not come back.
-/

namespace Alexandria.Compacts
set_option autoImplicit false
open Text
open Reconciliation (Instant)
open Notes (JsonValue JsonObject universalNewlines)

variable {φ : Type} {env : CompactEnvironment φ} {compact : MemoryCompact}

/-! ## The frontmatter of a note -/

theorem compactFrontmatter_keys (env : CompactEnvironment φ) (compact : MemoryCompact) :
    (∀ property ∈ compactFrontmatter env compact, isPropertyKey property.1 = true) ∧
      ((compactFrontmatter env compact).map Prod.fst).Nodup := by
  have hkeys : ((compactFrontmatter env compact).map Prod.fst).all isPropertyKey = true := by
    simp only [compactFrontmatter, List.map_cons, List.map_nil]
    decide
  refine ⟨fun property hproperty => List.all_eq_true.mp hkeys _ (List.mem_map_of_mem hproperty), ?_⟩
  simp only [compactFrontmatter, List.map_cons, List.map_nil]
  decide

def storedFrontmatter (env : CompactEnvironment φ) (compact : MemoryCompact) : CompactFrontmatter :=
  (compactFrontmatter env compact).map fun property => (property.1, reread property.2)

/-- The body as its lines are joined again. -/
def storedBody (body : String) : List Char :=
  ['\n'].intercalate (splitlines (body.toList.rdropWhile (· = '\n') ++ ['\n']))

theorem readFrontmatter_serialize (h : ∀ property ∈ compactFrontmatter env compact, LineValue property.2) :
    readFrontmatter (universalNewlines (serializeCompact env compact)) =
      (storedFrontmatter env compact, storedBody compact.markdownBody) := by
  obtain ⟨hkeys, hdistinct⟩ := compactFrontmatter_keys env compact
  have hlines : ∀ line ∈ (compactFrontmatter env compact).flatMap fun property => yamlPropertyLines property.1 property.2,
      Unbroken line ∧ isDelimiter line = false := by
    intro line hline
    obtain ⟨property, hproperty, hline⟩ := List.mem_flatMap.mp hline
    exact ⟨yamlPropertyLines_unbroken (hkeys property hproperty) (h property hproperty) line hline,
      yamlPropertyLines_notDelimiter (hkeys property hproperty) line hline⟩
  have hfront : ∀ line ∈ delimiter :: ((compactFrontmatter env compact).flatMap fun property =>
      yamlPropertyLines property.1 property.2) ++ [delimiter], Unbroken line := by
    have hunbroken : Unbroken delimiter := by decide
    intro line hline
    obtain hline | hline := List.mem_append.mp hline
    · obtain rfl | hline := List.mem_cons.mp hline
      · exact hunbroken
      · exact (hlines line hline).1
    · exact List.mem_singleton.mp hline ▸ hunbroken
  have hinside : ∀ line ∈ (compactFrontmatter env compact).flatMap fun property =>
      yamlPropertyLines property.1 property.2, (!isDelimiter line) = true := by
    intro line hline
    rw [(hlines line hline).2]
    rfl
  have hdelimiter : isDelimiter delimiter = true := by decide
  have hread := readProperties .start hkeys (by simpa [FrontmatterReading.start] using hdistinct)
  unfold readFrontmatter
  rw [splitlines_universalNewlines, serializeCompact, splitlines_lines hfront]
  simp only [List.cons_append, hdelimiter, if_true, List.append_assoc]
  rw [List.dropWhile_append_of_pos hinside, List.takeWhile_append_of_pos hinside,
    List.dropWhile_cons_of_neg (by simp [hdelimiter]), List.takeWhile_cons_of_neg (by simp [hdelimiter])]
  simp only [List.append_nil, hread]
  rfl

/-! ## What a compact comes back as -/

def MemoryCompact.instants (compact : MemoryCompact) : List Instant :=
  [compact.coveredFrom, compact.coveredTo, compact.createdAt, compact.updatedAt] ++
    (compact.archivedAt.toList ++ compact.reviewedAt.toList ++ compact.generatedAt.toList)

/-- The values of a compact that the codecs of the libraries read as they wrote them: a file has identifiers and timestamps
without line boundaries. -/
structure Codecs (env : CompactEnvironment φ) (compact : MemoryCompact) : Prop where
  id : compact.id ≠ "" ∧ Unbroken compact.id.toList ∧ isBracketed compact.id.toList = false
  instants : ∀ instant ∈ compact.instants, env.isoformat instant ≠ "" ∧ Unbroken (env.isoformat instant).toList ∧
    isBracketed (env.isoformat instant).toList = false ∧ env.parseDatetime (env.isoformat instant) = some instant
  scores : ∀ n ∈ compact.reviewScore.toList ++ compact.reviewMaxScore.toList ++ compact.generationRevision.toList,
    env.parseInt (String.ofList (Markdown.intText n)) = some n
  hashes : ∀ text ∈ compact.sourceSetHash.toList ++ compact.compactionPolicyVersion.toList,
    Unbroken text.toList ∧ isBracketed text.toList = false
  upper : env.upper compact.status.value = compact.status.value

/-- The JSON of the source references, on its line. -/
def sourceRefsText (env : CompactEnvironment φ) (compact : MemoryCompact) : String :=
  env.dumpsJson (sourceRefsJson compact.sourceRefs)

/-- The links to Markdown sources are on lines of their own. -/
def LinksOnLines (compact : MemoryCompact) : Prop :=
  ∀ ref ∈ compact.sourceRefs, ∀ link ∈ obsidianSourceLink ref.detailPath, Unbroken link.toList

instance (compact : MemoryCompact) : Decidable (LinksOnLines compact) := by
  unfold LinksOnLines
  infer_instance

/-- Every text that has a line of its own is one line. -/
structure OnLines (env : CompactEnvironment φ) (compact : MemoryCompact) : Prop where
  project : ∀ project ∈ compact.project, Unbroken project.toList
  sourceRefs : Unbroken (sourceRefsText env compact).toList
  links : LinksOnLines compact

/-- The compact as it is read from its note. -/
def storedCompact (env : CompactEnvironment φ) (compact : MemoryCompact) : MemoryCompact :=
  { compact with
    project := (reread (.ofText compact.project)).text?
    markdownBody := String.ofList ((storedBody compact.markdownBody).rdropWhile (· = '\n'))
    sourceRefs := sourceRefsFromFrontmatter env compact.id (some (reread (.text (sourceRefsText env compact))))
    metadataWarnings := []
    deduplicated := false }

theorem intText_plain (n : ℤ) : String.ofList (Markdown.intText n) ≠ "" ∧
    Unbroken (String.ofList (Markdown.intText n)).toList ∧ isBracketed (String.ofList (Markdown.intText n)).toList = false := by
  obtain ⟨hne, hchars⟩ := Markdown.intText_plain n
  obtain ⟨-, -, hdigits⟩ := Markdown.intText_spec n
  have hunbroken : ∀ c ∈ '-' :: Markdown.decimalDigits, isPythonLineBreak c = false := forall_mem_of_all (by decide)
  rw [String.toList_ofList]
  refine ⟨by simpa [String.ofList_eq_empty_iff] using hne, fun c hc => hunbroken c (List.mem_cons.mpr (hdigits c hc)), ?_⟩
  unfold isBracketed
  rw [decide_eq_false_iff_not]
  rintro ⟨hopen, -⟩
  exact (hchars '[' (List.mem_of_head? hopen)).2.2.2.2.1 rfl

theorem verdict_plain (verdict : MemoryCompactReviewVerdict) : verdict.value ≠ "" ∧ Unbroken verdict.value.toList ∧
    isBracketed verdict.value.toList = false ∧ MemoryCompactReviewVerdict.ofValue verdict.value = some verdict := by
  cases verdict <;> decide

theorem status_plain (status : MemoryCompactStatus) : status.value ≠ "" ∧ Unbroken status.value.toList ∧
    isBracketed status.value.toList = false ∧ pythonStrip status.value = status.value ∧
    MemoryCompactStatus.ofValue status.value = some status := by
  cases status <;> decide

theorem lineValue_ofText {text : Option String} (h : ∀ t ∈ text, Unbroken t.toList) :
    LineValue (CompactFrontmatterValue.ofText text) := by
  cases text with
  | none => trivial
  | some text => exact h text rfl

/-- The properties before the source references. -/
def leadingProperties (env : CompactEnvironment φ) (compact : MemoryCompact) : CompactFrontmatter :=
  (compactFrontmatter env compact).take 19

def sourceRefLinks (compact : MemoryCompact) : List String :=
  compact.sourceRefs.filterMap fun ref => obsidianSourceLink ref.detailPath

theorem compactFrontmatter_eq (env : CompactEnvironment φ) (compact : MemoryCompact) :
    compactFrontmatter env compact = leadingProperties env compact ++
      [("source_refs", .text (sourceRefsText env compact)), ("source_ref_links", .texts (sourceRefLinks compact))] := rfl

theorem leadingProperties_lines (hcodecs : Codecs env compact)
    (hproject : ∀ project ∈ compact.project, Unbroken project.toList) :
    ∀ property ∈ leadingProperties env compact, LineValue property.2 := by
  have htime : ∀ instant ∈ compact.instants, LineValue (.text (env.isoformat instant)) :=
    fun instant hinstant => (hcodecs.instants instant hinstant).2.1
  have hmapped : ∀ {α : Type} (render : α → String) (value : Option α), (∀ a ∈ value, Unbroken (render a).toList) →
      LineValue (.ofText (value.map render)) := by
    intro α render value hrender
    apply lineValue_ofText
    intro t ht
    obtain ⟨a, ha, rfl⟩ := Option.map_eq_some_iff.mp ht
    exact hrender a ha
  have hstamp : ∀ value : Option Instant, (∀ instant ∈ value, instant ∈ compact.instants) →
      LineValue (.ofText (value.map env.isoformat)) :=
    fun value hvalue => hmapped _ value fun instant hinstant => htime instant (hvalue instant hinstant)
  have hword : ∀ word ∈ ["memory_compact", "alexandria", "memory-compact", "heterarchy-alexandria"],
      Unbroken word.toList := by decide
  have htags : ∀ tag ∈ ["alexandria", "memory-compact"],
      tag ∈ ["memory_compact", "alexandria", "memory-compact", "heterarchy-alexandria"] := by decide
  simp only [leadingProperties, compactFrontmatter, List.take_succ_cons, List.take_zero, List.forall_mem_cons,
    List.not_mem_nil, false_implies, implies_true, and_true]
  exact ⟨hword _ (by decide), hcodecs.id.2.1, fun tag htag => hword tag (htags tag htag),
    (status_plain _).2.1, hword _ (by decide), lineValue_ofText hproject, htime _ (by simp [MemoryCompact.instants]),
    htime _ (by simp [MemoryCompact.instants]), htime _ (by simp [MemoryCompact.instants]),
    htime _ (by simp [MemoryCompact.instants]), hstamp _ (by simp +contextual [MemoryCompact.instants]),
    hmapped _ _ fun verdict _ => (verdict_plain verdict).2.1, hmapped _ _ fun n _ => (intText_plain n).2.1,
    hmapped _ _ fun n _ => (intText_plain n).2.1, hstamp _ (by simp +contextual [MemoryCompact.instants]),
    lineValue_ofText fun text htext => (hcodecs.hashes text (by simp at htext; simp [htext])).1,
    lineValue_ofText fun text htext => (hcodecs.hashes text (by simp at htext; simp [htext])).1,
    hmapped _ _ fun n _ => (intText_plain n).2.1, hstamp _ (by simp +contextual [MemoryCompact.instants])⟩

theorem sourceRefLinks_lines (hlinks : LinksOnLines compact) : LineValue (.texts (sourceRefLinks compact)) := by
  intro link hlink
  obtain ⟨ref, href, hlink⟩ := List.mem_filterMap.mp hlink
  exact hlinks ref href link hlink

theorem compactFrontmatter_lines (hcodecs : Codecs env compact) (h : OnLines env compact) :
    ∀ property ∈ compactFrontmatter env compact, LineValue property.2 := by
  rw [compactFrontmatter_eq]
  intro property hproperty
  obtain hproperty | hproperty := List.mem_append.mp hproperty
  · exact leadingProperties_lines hcodecs h.project property hproperty
  · obtain rfl | hproperty := List.mem_cons.mp hproperty
    · exact h.sourceRefs
    · rw [List.mem_singleton.mp hproperty]
      exact sourceRefLinks_lines h.links

/-! ## Reading the frontmatter -/

theorem reread_plain {text : String} (h : isBracketed text.toList = false) : reread (.text text) = .text text := by
  simp only [reread, h, Bool.false_eq_true, if_false]

theorem lookup_stored {key : String} {value : CompactFrontmatterValue} (h : (key, value) ∈ compactFrontmatter env compact) :
    Keyed.lookup Prod.fst key (storedFrontmatter env compact) = some (key, reread value) := by
  have hdistinct : ((storedFrontmatter env compact).map Prod.fst).Nodup := by
    rw [storedFrontmatter, List.map_map]
    exact (compactFrontmatter_keys env compact).2
  exact (Keyed.lookup_eq_some hdistinct).mpr ⟨List.mem_map_of_mem (f := fun property => (property.1, reread property.2)) h, rfl⟩

theorem frontmatterText_stored {key : String} {value : CompactFrontmatterValue}
    (h : (key, value) ∈ compactFrontmatter env compact) :
    frontmatterText (storedFrontmatter env compact) key = (reread value).text? := by
  unfold frontmatterText
  rw [lookup_stored h]
  rfl

theorem requiredText_stored {key text : String} (h : (key, .text text) ∈ compactFrontmatter env compact) (hne : text ≠ "")
    (hplain : isBracketed text.toList = false) : requiredText (storedFrontmatter env compact) key = some text := by
  unfold requiredText
  rw [frontmatterText_stored h, reread_plain hplain]
  simp [CompactFrontmatterValue.text?, hne]

/-- A value that its parser reads back is the value. -/
theorem optionalParsed_stored {α : Type} {parse : String → Option α} {render : α → String} {value : Option α} {key : String}
    (h : (key, .ofText (value.map render)) ∈ compactFrontmatter env compact)
    (hvalue : ∀ a ∈ value, render a ≠ "" ∧ isBracketed (render a).toList = false ∧ parse (render a) = some a) :
    optionalParsed parse (frontmatterText (storedFrontmatter env compact) key) = some value := by
  rw [frontmatterText_stored h]
  cases value with
  | none => rfl
  | some a =>
    obtain ⟨hne, hplain, hparse⟩ := hvalue a rfl
    simp only [Option.map_some, CompactFrontmatterValue.ofText, reread_plain hplain]
    simp [CompactFrontmatterValue.text?, optionalParsed, hne, hparse]

theorem readCompactFile_serialize (hcodecs : Codecs env compact) (h : OnLines env compact) :
    readCompactFile env (serializeCompact env compact) = some (storedCompact env compact) := by
  have htype : Keyed.lookup Prod.fst "alexandria_type" (storedFrontmatter env compact) =
      some ("alexandria_type", .text "memory_compact") := by
    have hmem : ("alexandria_type", .text "memory_compact") ∈ compactFrontmatter env compact := by simp [compactFrontmatter]
    rw [lookup_stored hmem, reread_plain (by decide)]
  unfold readCompactFile
  rw [readFrontmatter_serialize (compactFrontmatter_lines hcodecs h)]
  simp only [htype, if_true]
  have hid : requiredText (storedFrontmatter env compact) "id" = some compact.id :=
    requiredText_stored (by simp [compactFrontmatter]) hcodecs.id.1 hcodecs.id.2.2
  have hstatus : statusFromFrontmatter env (storedFrontmatter env compact) = some compact.status := by
    obtain ⟨hne, -, hplain, hstrip, hvalue⟩ := status_plain compact.status
    unfold statusFromFrontmatter
    have hmem : ("status", .text compact.status.value) ∈ compactFrontmatter env compact := by simp [compactFrontmatter]
    rw [requiredText_stored hmem hne hplain, Option.bind_some, hstrip, hcodecs.upper, hvalue]
  have htime : ∀ key rest fallback, ∀ instant ∈ compact.instants,
      (key, .text (env.isoformat instant)) ∈ compactFrontmatter env compact →
      datetimeFromFrontmatter env (storedFrontmatter env compact) (key :: rest) fallback = some instant := by
    intro key rest fallback instant hinstant hmem
    obtain ⟨hne, -, hplain, hparse⟩ := hcodecs.instants instant hinstant
    unfold datetimeFromFrontmatter
    rw [List.findSome?_cons, requiredText_stored hmem hne hplain]
    exact hparse
  have hcreated := htime "created_at" ["created", "date"] none compact.createdAt (by simp [MemoryCompact.instants])
    (by simp [compactFrontmatter])
  have hupdated := htime "updated_at" ["updated", "modified"] (some compact.createdAt) compact.updatedAt
    (by simp [MemoryCompact.instants]) (by simp [compactFrontmatter])
  have hfrom := htime "covered_from" [] (some compact.createdAt) compact.coveredFrom (by simp [MemoryCompact.instants])
    (by simp [compactFrontmatter])
  have hto := htime "covered_to" [] (some compact.updatedAt) compact.coveredTo (by simp [MemoryCompact.instants])
    (by simp [compactFrontmatter])
  have hstamp : ∀ key value, (∀ instant ∈ value, instant ∈ compact.instants) →
      (key, .ofText (value.map env.isoformat)) ∈ compactFrontmatter env compact →
      optionalParsed env.parseDatetime (frontmatterText (storedFrontmatter env compact) key) = some value := by
    intro key value hvalue hmem
    refine optionalParsed_stored hmem fun instant hinstant => ?_
    obtain ⟨hne, -, hplain, hparse⟩ := hcodecs.instants instant (hvalue instant hinstant)
    exact ⟨hne, hplain, hparse⟩
  have hscore : ∀ key value, (∀ n ∈ value, env.parseInt (String.ofList (Markdown.intText n)) = some n) →
      (key, .ofText (value.map fun n => String.ofList (Markdown.intText n))) ∈ compactFrontmatter env compact →
      optionalParsed env.parseInt (frontmatterText (storedFrontmatter env compact) key) = some value := by
    intro key value hvalue hmem
    exact optionalParsed_stored hmem fun n hn => ⟨(intText_plain n).1, (intText_plain n).2.2, hvalue n hn⟩
  have hverdict : optionalParsed MemoryCompactReviewVerdict.ofValue
      (frontmatterText (storedFrontmatter env compact) "review_verdict") = some compact.reviewVerdict := by
    have hmem : ("review_verdict", .ofText (compact.reviewVerdict.map (·.value))) ∈ compactFrontmatter env compact := by
      simp [compactFrontmatter]
    refine optionalParsed_stored hmem fun verdict _ => ?_
    obtain ⟨hne, -, hplain, hvalue⟩ := verdict_plain verdict
    exact ⟨hne, hplain, hvalue⟩
  have harchived := hstamp "archived_at" compact.archivedAt (by simp +contextual [MemoryCompact.instants])
    (by simp [compactFrontmatter])
  have hreviewed := hstamp "reviewed_at" compact.reviewedAt (by simp +contextual [MemoryCompact.instants])
    (by simp [compactFrontmatter])
  have hgenerated := hstamp "generated_at" compact.generatedAt (by simp +contextual [MemoryCompact.instants])
    (by simp [compactFrontmatter])
  have hreview := hscore "review_score" compact.reviewScore (fun n hn => hcodecs.scores n (by simp at hn; simp [hn]))
    (by simp [compactFrontmatter])
  have hmax := hscore "review_max_score" compact.reviewMaxScore (fun n hn => hcodecs.scores n (by simp at hn; simp [hn]))
    (by simp [compactFrontmatter])
  have hrevision := hscore "generation_revision" compact.generationRevision
    (fun n hn => hcodecs.scores n (by simp at hn; simp [hn])) (by simp [compactFrontmatter])
  have htext : ∀ key text, (∀ t ∈ text, isBracketed t.toList = false) →
      (key, .ofText text) ∈ compactFrontmatter env compact → frontmatterText (storedFrontmatter env compact) key = text := by
    intro key text hplain hmem
    rw [frontmatterText_stored hmem]
    cases text with
    | none => rfl
    | some t => rw [CompactFrontmatterValue.ofText, reread_plain (hplain t rfl)]; rfl
  have hhash := htext "source_set_hash" compact.sourceSetHash (fun t ht => (hcodecs.hashes t (by simp at ht; simp [ht])).2)
    (by simp [compactFrontmatter])
  have hpolicy := htext "compaction_policy_version" compact.compactionPolicyVersion
    (fun t ht => (hcodecs.hashes t (by simp at ht; simp [ht])).2) (by simp [compactFrontmatter])
  have hproject : frontmatterText (storedFrontmatter env compact) "project" = (reread (.ofText compact.project)).text? :=
    frontmatterText_stored (by simp [compactFrontmatter])
  have hrefs : Keyed.lookup Prod.fst "source_refs" (storedFrontmatter env compact) =
      some ("source_refs", reread (.text (sourceRefsText env compact))) := lookup_stored (by simp [compactFrontmatter, sourceRefsText])
  have hpresent : updatedAtMissing (storedFrontmatter env compact) = false := by
    obtain ⟨hne, -, hplain, -⟩ := hcodecs.instants compact.updatedAt (by simp [MemoryCompact.instants])
    have hupdatedAt : Keyed.lookup Prod.fst "updated_at" (storedFrontmatter env compact) =
        some ("updated_at", reread (.text (env.isoformat compact.updatedAt))) := lookup_stored (by simp [compactFrontmatter])
    simp [updatedAtMissing, updatedAtKeys, hupdatedAt, reread_plain hplain, CompactFrontmatterValue.isTruthy, hne]
  unfold compactFromFrontmatter updatedAtKeys
  simp only [Option.bind_eq_bind, hid, hstatus, hcreated, hupdated, hfrom, hto, harchived, hverdict, hreview, hmax, hreviewed,
    hrevision, hgenerated, hhash, hpolicy, hproject, hrefs, hpresent, Option.bind_some, Option.map_some, Option.pure_def]
  rfl

/-! ## The body -/

/-- A body that its lines are joined to again. -/
def KeepsBody (body : String) : Prop :=
  (∀ c ∈ body.toList, isPythonLineBreak c = true → c = '\n') ∧ body.toList.getLast? ≠ some '\n'

instance (body : String) : Decidable (KeepsBody body) :=
  have := List.decidableBAll (fun c => isPythonLineBreak c = true → c = '\n') body.toList
  inferInstanceAs (Decidable (_ ∧ _))

theorem getLast?_rdropWhile (text : List Char) : (text.rdropWhile (· = '\n')).getLast? ≠ some '\n' := by
  intro hlast
  have hne : text.rdropWhile (· = '\n') ≠ [] := by
    intro hnil
    rw [hnil] at hlast
    cases hlast
  have hkept := List.rdropWhile_last_not (fun c => decide (c = '\n')) text hne
  rw [List.getLast?_eq_getLast_of_ne_nil hne] at hlast
  exact hkept (by simpa using Option.some.inj hlast)

theorem rdropWhile_newline {text : List Char} (h : text.getLast? ≠ some '\n') : text.rdropWhile (· = '\n') = text := by
  induction text using List.reverseRecOn with
  | nil => rfl
  | append_singleton text c _ =>
    rw [List.rdropWhile_concat_neg]
    intro hc
    apply h
    rw [List.getLast?_concat, of_decide_eq_true hc]

theorem storedBody_iff (body : String) :
    String.ofList ((storedBody body).rdropWhile (· = '\n')) = body ↔ KeepsBody body := by
  constructor
  · intro hsame
    have hchars := congrArg String.toList hsame
    rw [String.toList_ofList] at hchars
    refine ⟨?_, ?_⟩
    · intro c hc hbreak
      rw [← hchars] at hc
      exact intercalate_boundary ((List.rdropWhile_prefix _ _).subset hc) hbreak
    · rw [← hchars]
      exact getLast?_rdropWhile _
  · rintro ⟨hbreaks, hlast⟩
    unfold storedBody
    rw [rdropWhile_newline hlast, intercalate_splitlines hbreaks, rdropWhile_newline hlast, String.ofList_toList]

/-! ## The source references -/

/-- What the JSON library does with the references of the compact. -/
structure JsonCodec (env : CompactEnvironment φ) (compact : MemoryCompact) : Prop where
  empty : compact.sourceRefs = [] → sourceRefsText env compact = "[]"
  opens : compact.sourceRefs ≠ [] → ∃ rest, (sourceRefsText env compact).toList = '[' :: '\x7b' :: (rest ++ [']'])
  loads : env.loadsJson (sourceRefsText env compact) = some (sourceRefsJson compact.sourceRefs)
  /-- A text that ends before the array does is refused. -/
  truncated : ∀ part, part <+: (sourceRefsText env compact).toList → part ≠ (sourceRefsText env compact).toList →
    env.loadsJson (String.ofList part) = none
  ids : ∀ ref ∈ compact.sourceRefs, ref.id ≠ "" ∧ ref.compactId ≠ ""

/-- The hash is absent, or a text without blanks around it. -/
def KeepsHash (ref : MemoryCompactSourceRef) : Prop := ∀ hash ∈ ref.sourceHash, hash ≠ "" ∧ pythonStrip hash = hash

instance (ref : MemoryCompactSourceRef) : Decidable (KeepsHash ref) := by
  unfold KeepsHash
  infer_instance

def storedRef (ref : MemoryCompactSourceRef) : MemoryCompactSourceRef :=
  { ref with sourceHash := (ref.sourceHash.map pythonStrip).filter (· ≠ "") }

theorem storedRef_iff (ref : MemoryCompactSourceRef) : storedRef ref = ref ↔ KeepsHash ref := by
  have hhash : storedRef ref = ref ↔ (ref.sourceHash.map pythonStrip).filter (· ≠ "") = ref.sourceHash := by
    constructor
    · intro h
      exact congrArg MemoryCompactSourceRef.sourceHash h
    · intro h
      unfold storedRef
      rw [h]
  rw [hhash]
  unfold KeepsHash
  cases ref.sourceHash with
  | none => simp
  | some hash =>
    simp only [Option.map_some, Option.mem_some_iff, forall_eq']
    constructor
    · intro h
      obtain ⟨hmem, hne⟩ := Option.filter_eq_some_iff.mp h
      have hstrip : pythonStrip hash = hash := Option.some.inj hmem
      exact ⟨by simpa using hne, hstrip⟩
    · rintro ⟨hne, hstrip⟩
      rw [hstrip, Option.filter_some_pos (by simpa using hne)]

theorem textOr_str (text default : String) : textOr env (.str text) default = if text = "" then default else text := by
  by_cases h : text = "" <;> simp [textOr, isTruthy, JsonValue.text?, h]

theorem optionalString_ofText (text : Option String) :
    optionalString (JsonValue.ofText text : JsonValue φ) = (text.map pythonStrip).filter (· ≠ "") := by
  cases text with
  | none => rfl
  | some text =>
    simp only [JsonValue.ofText, optionalString, Option.map_some]
    by_cases h : pythonStrip text = ""
    · rw [if_pos h, Option.filter_some_neg (by simpa using h)]
    · rw [if_neg h, Option.filter_some_pos (by simpa using h)]

theorem sourceRefFromJson_written {compactId newId : String} {ref : MemoryCompactSourceRef}
    (hids : ref.id ≠ "" ∧ ref.compactId ≠ "") {payload : JsonObject φ} (hpayload : sourceRefJson ref = .object payload) :
    sourceRefFromJson env compactId newId payload = storedRef ref := by
  have hblank : ∀ text : String, (if text = "" then "" else text) = text := by
    intro text
    split <;> simp_all
  obtain ⟨hid, hcompact, htype, hsource, htitle, hpath, hhash⟩ : payload.get "id" = .str ref.id ∧
      payload.get "compact_id" = .str ref.compactId ∧ payload.get "source_type" = .str ref.sourceType ∧
      payload.get "source_id" = .str ref.sourceId ∧ payload.get "title" = .str ref.title ∧
      payload.get "detail_path" = .str ref.detailPath ∧ payload.get "source_hash" = .ofText ref.sourceHash := by
    cases hpayload
    exact ⟨rfl, rfl, rfl, rfl, rfl, rfl, rfl⟩
  simp only [sourceRefFromJson, hid, hcompact, htype, hsource, htitle, hpath, hhash, textOr_str, if_neg hids.1,
    if_neg hids.2, hblank, optionalString_ofText, storedRef]

theorem sourceRefsFromJson_loads (hjson : JsonCodec env compact) (hne : compact.sourceRefs ≠ []) (compactId : String)
    (item : ℕ) : sourceRefsFromJson env compactId item (sourceRefsText env compact) = compact.sourceRefs.map storedRef := by
  obtain ⟨rest, hopens⟩ := hjson.opens hne
  have htext : sourceRefsText env compact ≠ "" := by
    intro hempty
    rw [hempty] at hopens
    cases hopens
  have hread : ∀ (read : JsonValue φ × ℕ → Option MemoryCompactSourceRef),
      (∀ payload n, read (.object payload, n) = some (sourceRefFromJson env compactId (env.newUuid item n) payload)) →
      ∀ (refs : List MemoryCompactSourceRef) (n : ℕ), (∀ ref ∈ refs, ref.id ≠ "" ∧ ref.compactId ≠ "") →
      ((refs.map (sourceRefJson (φ := φ))).zipIdx n).filterMap read = refs.map storedRef := by
    intro read hobject refs
    induction refs with
    | nil => simp
    | cons ref refs ih =>
      intro n hids
      rw [List.map_cons, List.zipIdx_cons, List.filterMap_cons_some, List.map_cons,
        ih (n + 1) fun other hother => hids other (List.mem_cons_of_mem ref hother)]
      exact (hobject _ n).trans (congrArg some (sourceRefFromJson_written (hids ref List.mem_cons_self) rfl))
  unfold sourceRefsFromJson
  rw [if_neg htext, hjson.loads]
  exact hread _ (fun _ _ => rfl) compact.sourceRefs 0 hjson.ids

/-! ## The round trip -/

/-- The two compacts agree on what a creation is about. -/
structure SameContent (hashText : String → String) (read compact : MemoryCompact) : Prop where
  project : read.project = compact.project
  markdownBody : read.markdownBody = compact.markdownBody
  sourceRefs : read.sourceRefs = compact.sourceRefs
  coveredFrom : read.coveredFrom = compact.coveredFrom
  coveredTo : read.coveredTo = compact.coveredTo
  status : read.status = compact.status
  signature : compactSignature hashText read = compactSignature hashText compact

def RoundTrips (env : CompactEnvironment φ) (hashText : String → String) (compact : MemoryCompact) : Prop :=
  ∃ read, readCompactFile env (serializeCompact env compact) = some read ∧ SameContent hashText read compact

/-- The texts of the compact that its note keeps. -/
structure KeptTexts (env : CompactEnvironment φ) (compact : MemoryCompact) : Prop where
  project : ∀ project ∈ compact.project, Unbroken project.toList ∧ isListText project.toList = false
  markdownBody : KeepsBody compact.markdownBody
  sourceRefs : Unbroken (sourceRefsText env compact).toList
  hashes : ∀ ref ∈ compact.sourceRefs, KeepsHash ref

theorem storedProject_iff (project : Option String) :
    (reread (.ofText project)).text? = project ↔ ∀ text ∈ project, isListText text.toList = false := by
  cases project with
  | none => simp [CompactFrontmatterValue.ofText, reread, CompactFrontmatterValue.text?]
  | some text =>
    rw [CompactFrontmatterValue.ofText, reread_text_iff]
    simp

theorem storedRefs_iff (hjson : JsonCodec env compact) :
    (storedCompact env compact).sourceRefs = compact.sourceRefs ↔ ∀ ref ∈ compact.sourceRefs, KeepsHash ref := by
  have hstored : (storedCompact env compact).sourceRefs = compact.sourceRefs.map storedRef := by
    cases hrefs : compact.sourceRefs with
    | nil =>
      simp only [storedCompact, hjson.empty hrefs]
      rfl
    | cons ref refs =>
      have hne : compact.sourceRefs ≠ [] := by rw [hrefs]; exact List.cons_ne_nil ref refs
      obtain ⟨rest, hopens⟩ := hjson.opens hne
      have hreread : reread (.text (sourceRefsText env compact)) = .text (sourceRefsText env compact) := by
        simp only [reread]
        split
        · rw [hopens, parseYamlValue_nested, ← hopens, String.ofList_toList]
        · rfl
      rw [← hrefs, ← sourceRefsFromJson_loads hjson hne compact.id 0]
      simp only [storedCompact, hreread]
      rfl
  rw [hstored]
  nth_rewrite 2 [← List.map_id compact.sourceRefs]
  rw [List.map_inj_left]
  simp only [id_eq, storedRef_iff]

theorem compactSignature_congr (hashText : String → String) {read compact : MemoryCompact} (hproject : read.project = compact.project)
    (hbody : read.markdownBody = compact.markdownBody) (hrefs : read.sourceRefs = compact.sourceRefs)
    (hfrom : read.coveredFrom = compact.coveredFrom) (hto : read.coveredTo = compact.coveredTo) :
    compactSignature hashText read = compactSignature hashText compact := by
  simp only [compactSignature, hproject, hbody, hrefs, hfrom, hto]

theorem roundTrips_of_kept (hcodecs : Codecs env compact) (hjson : JsonCodec env compact) (hlinks : LinksOnLines compact)
    (hkept : KeptTexts env compact) (hashText : String → String) : RoundTrips env hashText compact := by
  have hlines : OnLines env compact := ⟨fun project hproject => (hkept.project project hproject).1, hkept.sourceRefs, hlinks⟩
  have hproject : (storedCompact env compact).project = compact.project :=
    (storedProject_iff compact.project).mpr fun project hmem => (hkept.project project hmem).2
  have hbody : (storedCompact env compact).markdownBody = compact.markdownBody := (storedBody_iff _).mpr hkept.markdownBody
  have hrefs := (storedRefs_iff hjson).mpr hkept.hashes
  exact ⟨_, readCompactFile_serialize hcodecs hlines, hproject, hbody, hrefs, rfl, rfl, rfl,
    compactSignature_congr hashText hproject hbody hrefs rfl rfl⟩

/-! ## Texts that are broken -/

/-- No text of the fields has a line boundary in it. -/
def UnbrokenTexts (fields : CompactFrontmatter) : Prop := ∀ field ∈ fields, ∀ text, field.2 = .text text → Unbroken text.toList

theorem parseYamlScalar_unbroken {value : List Char} (h : Unbroken value) {text : String}
    (htext : parseYamlScalar value = .text text) : Unbroken text.toList := by
  unfold parseYamlScalar at htext
  split_ifs at htext
  cases hsingle : Markdown.Native.quotedBy '\'' value with
  | some inner =>
    rw [hsingle] at htext
    cases htext
    rw [String.toList_ofList]
    exact h.mono fun c hc => Markdown.Native.mem_quotedBy hsingle (Markdown.Native.mem_undoubleQuotes hc)
  | none =>
    cases hdouble : Markdown.Native.quotedBy '"' value with
    | some inner =>
      rw [hsingle, hdouble] at htext
      cases htext
      rw [String.toList_ofList]
      exact h.mono fun c hc => Markdown.Native.mem_quotedBy hdouble hc
    | none =>
      rw [hsingle, hdouble] at htext
      cases htext
      rw [String.toList_ofList]
      exact h

theorem parseYamlValue_unbroken {value : List Char} (h : Unbroken value) {text : String}
    (htext : parseYamlValue value = .text text) : Unbroken text.toList := by
  cases hlist : isListText value with
  | true =>
    obtain ⟨values, hvalues⟩ := parseYamlValue_list hlist
    rw [hvalues] at htext
    cases htext
  | false => exact parseYamlScalar_unbroken h (parseYamlValue_scalar hlist ▸ htext)

theorem UnbrokenTexts.put {fields : CompactFrontmatter} (h : UnbrokenTexts fields) {key : String}
    {value : CompactFrontmatterValue} (hvalue : ∀ text, value = .text text → Unbroken text.toList) :
    UnbrokenTexts (Keyed.put Prod.fst (key, value) fields) := by
  intro field hfield
  obtain rfl | ⟨hfield, -⟩ := Keyed.mem_put.mp hfield
  · exact hvalue
  · exact h field hfield

theorem UnbrokenTexts.line {reading : FrontmatterReading} (h : UnbrokenTexts reading.fields) {line : List Char}
    (hline : Unbroken line) : UnbrokenTexts (reading.line line).fields := by
  have hproperty : UnbrokenTexts (reading.property line).fields := by
    unfold FrontmatterReading.property
    split
    · exact h
    · rename_i colon rawValue hdrop
      simp only
      split
      · exact h
      · split
        · exact h.put fun text htext => by cases htext
        · refine h.put fun text htext => parseYamlValue_unbroken (hline.mono fun c hc => ?_) htext
          have hraw : c ∈ line.dropWhile (· ≠ ':') := by
            rw [hdrop]
            exact List.mem_cons_of_mem colon (mem_of_mem_trimBy hc)
          exact (List.dropWhile_suffix _).subset hraw
  unfold FrontmatterReading.line
  simp only
  split
  · exact h
  · split
    · unfold appendItem
      simp only
      split
      · exact h.put fun text htext => by cases htext
      · exact h
    · exact hproperty

theorem unbrokenTexts_lines {lines : List (List Char)} (hlines : ∀ line ∈ lines, Unbroken line) {reading : FrontmatterReading}
    (h : UnbrokenTexts reading.fields) : UnbrokenTexts (lines.foldl FrontmatterReading.line reading).fields := by
  induction lines generalizing reading with
  | nil => exact h
  | cons line lines ih =>
    exact ih (fun other hother => hlines other (List.mem_cons_of_mem line hother)) (h.line (hlines line List.mem_cons_self))

/-- The frontmatter of a file that is a compact. -/
theorem readCompactFile_frontmatter {text : List Char} {read : MemoryCompact} (h : readCompactFile env text = some read) :
    ∃ frontmatter body, readFrontmatter (universalNewlines text) = (frontmatter, body) ∧
      Keyed.lookup Prod.fst "alexandria_type" frontmatter = some ("alexandria_type", .text "memory_compact") ∧
      read.project = frontmatterText frontmatter "project" ∧
      read.markdownBody = String.ofList (body.rdropWhile (· = '\n')) ∧
      read.sourceRefs = sourceRefsFromFrontmatter env read.id
        ((Keyed.lookup Prod.fst "source_refs" frontmatter).map Prod.snd) := by
  unfold readCompactFile at h
  cases hread : readFrontmatter (universalNewlines text) with
  | mk frontmatter body =>
    rw [hread] at h
    simp only at h
    split at h
    · rename_i htype
      refine ⟨frontmatter, body, rfl, htype, ?_⟩
      obtain ⟨id, -, h⟩ := Option.bind_eq_some_iff.mp h
      obtain ⟨status, -, h⟩ := Option.bind_eq_some_iff.mp h
      obtain ⟨createdAt, -, h⟩ := Option.bind_eq_some_iff.mp h
      obtain ⟨updatedAt, -, h⟩ := Option.bind_eq_some_iff.mp h
      obtain ⟨coveredFrom, -, h⟩ := Option.bind_eq_some_iff.mp h
      obtain ⟨coveredTo, -, h⟩ := Option.bind_eq_some_iff.mp h
      obtain ⟨archivedAt, -, h⟩ := Option.bind_eq_some_iff.mp h
      obtain ⟨verdict, -, h⟩ := Option.bind_eq_some_iff.mp h
      obtain ⟨score, -, h⟩ := Option.bind_eq_some_iff.mp h
      obtain ⟨maxScore, -, h⟩ := Option.bind_eq_some_iff.mp h
      obtain ⟨reviewedAt, -, h⟩ := Option.bind_eq_some_iff.mp h
      obtain ⟨revision, -, h⟩ := Option.bind_eq_some_iff.mp h
      obtain ⟨generatedAt, -, h⟩ := Option.bind_eq_some_iff.mp h
      rw [← Option.some.inj h]
      exact ⟨rfl, rfl, rfl⟩
    · cases h

theorem readFrontmatter_unbroken (text : List Char) : UnbrokenTexts (readFrontmatter text).1 := by
  have hnil : UnbrokenTexts [] := by
    intro field hfield
    cases hfield
  unfold readFrontmatter
  split
  · exact hnil
  · rename_i first lines hlines
    split
    · split
      · exact hnil
      · refine unbrokenTexts_lines ?_ hnil
        intro line hline
        have hmem : line ∈ splitlines text := by
          rw [hlines]
          exact List.mem_cons_of_mem first ((List.takeWhile_prefix _).subset hline)
        exact (mem_splitlines hmem).1
    · exact hnil

theorem readCompactFile_project {text : List Char} {read : MemoryCompact} (h : readCompactFile env text = some read) :
    ∀ project ∈ read.project, Unbroken project.toList := by
  obtain ⟨frontmatter, body, hread, -, hproject, -, -⟩ := readCompactFile_frontmatter h
  have hunbroken := readFrontmatter_unbroken (universalNewlines text)
  rw [hread] at hunbroken
  intro project hmem
  rw [hproject] at hmem
  obtain ⟨field, hlookup, htext⟩ := Option.bind_eq_some_iff.mp hmem
  refine hunbroken field (Keyed.lookup_mem hlookup).1 project ?_
  cases hvalue : field.2 <;> rw [hvalue] at htext <;> cases htext
  rfl

/-! ## References that are broken -/

/-- The key that a line would set. -/
def lineKey (line : List Char) : String := String.ofList (trimBy isPythonWhitespace (line.takeWhile (· ≠ ':')))

/-- The line sets no property of this name. -/
def SetsOther (key : String) (line : List Char) : Prop := lineKey line = key → line.head?.any isPythonWhitespace = true

/-- The field has the value, and what follows is no item of it. -/
structure Holds (key : String) (value : CompactFrontmatterValue) (reading : FrontmatterReading) : Prop where
  value : Keyed.lookup Prod.fst key reading.fields = some (key, value)
  closed : reading.activeListKey ≠ some key

theorem Holds.line {key : String} {value : CompactFrontmatterValue} {reading : FrontmatterReading} (h : Holds key value reading)
    {line : List Char} (hline : SetsOther key line) : Holds key value (reading.line line) := by
  have hput : ∀ (other : String) (field : CompactFrontmatterValue), other ≠ key →
      Keyed.lookup Prod.fst key (Keyed.put Prod.fst (other, field) reading.fields) = some (key, value) := by
    intro other field hother
    rw [Keyed.lookup_put, if_neg hother, h.value]
  have hproperty : Holds key value (reading.property line) := by
    unfold FrontmatterReading.property
    split
    · exact ⟨h.value, by simp⟩
    · simp only
      split
      · exact ⟨h.value, by simp⟩
      · rename_i hset
        rw [Bool.or_eq_true, not_or, Bool.not_eq_true] at hset
        have hother : lineKey line ≠ key := by
          intro hsame
          rw [hline hsame] at hset
          exact absurd hset.1 (by decide)
        split
        · exact ⟨hput _ _ hother, fun hsame => hother (Option.some.inj hsame)⟩
        · exact ⟨hput _ _ hother, by simp⟩
  unfold FrontmatterReading.line
  simp only
  split
  · exact h
  · split
    · rename_i other hactive
      have hother : other ≠ key := by
        rintro rfl
        exact h.closed (Option.filter_eq_some_iff.mp hactive).1
      refine ⟨?_, h.closed⟩
      unfold appendItem
      split
      · exact hput _ _ hother
      · exact h.value
    · exact hproperty

theorem Holds.lines {key : String} {value : CompactFrontmatterValue} {lines : List (List Char)}
    (hlines : ∀ line ∈ lines, SetsOther key line) {reading : FrontmatterReading} (h : Holds key value reading) :
    Holds key value (lines.foldl FrontmatterReading.line reading) := by
  induction lines generalizing reading with
  | nil => exact h
  | cons line lines ih =>
    exact ih (fun other hother => hlines other (List.mem_cons_of_mem line hother)) (h.line (hlines line List.mem_cons_self))

/-- The lines of the references after the first one set no references. -/
def Unforged (env : CompactEnvironment φ) (compact : MemoryCompact) : Prop :=
  ∀ line ∈ (splitlines ((sourceRefsText env compact).toList ++ ['\n'])).tail, SetsOther "source_refs" line

/-- The first line of the references, which is all that the property has of them. -/
def firstLine (env : CompactEnvironment φ) (compact : MemoryCompact) : List Char :=
  (splitlines ((sourceRefsText env compact).toList ++ ['\n'])).headD []

theorem takeWhile_append_stop {p : List Char → Bool} {stop : List Char} (hstop : p stop = false) (lines rest : List (List Char)) :
    (lines ++ stop :: rest).takeWhile p = lines.takeWhile p := by
  induction lines with
  | nil => simp [hstop]
  | cons line lines ih =>
    rw [List.cons_append, List.takeWhile_cons, List.takeWhile_cons, ih]

theorem dropWhile_append_stop {p : List Char → Bool} {stop : List Char} (hstop : p stop = false) (lines rest : List (List Char)) :
    (lines ++ stop :: rest).dropWhile p ≠ [] := by
  induction lines with
  | nil => simp [hstop]
  | cons line lines ih =>
    rw [List.cons_append, List.dropWhile_cons]
    split
    · exact ih
    · exact List.cons_ne_nil _ _

/-- The lines of a note whose references are broken. -/
theorem splitlines_serialize (hcodecs : Codecs env compact) (hproject : ∀ project ∈ compact.project, Unbroken project.toList)
    (hlinks : LinksOnLines compact) (hbracketed : isBracketed (sourceRefsText env compact).toList = true) :
    ∃ body, splitlines (serializeCompact env compact) =
      delimiter :: ((leadingProperties env compact).flatMap (fun property => yamlPropertyLines property.1 property.2) ++
        ("source_refs".toList ++ ':' :: ' ' :: firstLine env compact) ::
          ((splitlines ((sourceRefsText env compact).toList ++ ['\n'])).tail ++
            yamlPropertyLines "source_ref_links" (.texts (sourceRefLinks compact)) ++ delimiter :: body)) := by
  have hdelimiter : Unbroken delimiter := by decide
  have hleading : ∀ line ∈ delimiter :: (leadingProperties env compact).flatMap (fun property =>
      yamlPropertyLines property.1 property.2), Unbroken line := by
    intro line hline
    obtain rfl | hline := List.mem_cons.mp hline
    · exact hdelimiter
    · obtain ⟨property, hproperty, hline⟩ := List.mem_flatMap.mp hline
      have hkey : isPropertyKey property.1 = true :=
        (compactFrontmatter_keys env compact).1 property (List.mem_of_mem_take hproperty)
      exact yamlPropertyLines_unbroken hkey (leadingProperties_lines hcodecs hproject property hproperty) line hline
  have hending : ∀ line ∈ yamlPropertyLines "source_ref_links" (.texts (sourceRefLinks compact)) ++ [delimiter],
      Unbroken line := by
    intro line hline
    obtain hline | hline := List.mem_append.mp hline
    · exact yamlPropertyLines_unbroken (by decide) (sourceRefLinks_lines hlinks) line hline
    · exact List.mem_singleton.mp hline ▸ hdelimiter
  have htext : yamlText (sourceRefsText env compact) = (sourceRefsText env compact).toList := if_pos hbracketed
  have hserialized : serializeCompact env compact =
      (delimiter :: (leadingProperties env compact).flatMap (fun property =>
          yamlPropertyLines property.1 property.2)).flatMap (fun line => line ++ ['\n']) ++
        (("source_refs".toList ++ [':', ' '] ++ (sourceRefsText env compact).toList) ++ '\n' ::
          ((yamlPropertyLines "source_ref_links" (.texts (sourceRefLinks compact)) ++ [delimiter]).flatMap
            (fun line => line ++ ['\n']) ++ (compact.markdownBody.toList.rdropWhile (· = '\n') ++ ['\n']))) := by
    have hcolon : ": ".toList = [':', ' '] := by decide
    rw [serializeCompact, compactFrontmatter_eq, ← htext, ← hcolon]
    simp only [List.flatMap_append, List.flatMap_cons, List.flatMap_nil, yamlPropertyLines, List.append_assoc,
      List.cons_append, List.nil_append, List.append_nil]
  refine ⟨splitlines (compact.markdownBody.toList.rdropWhile (· = '\n') ++ ['\n']), ?_⟩
  rw [hserialized, splitlines_lines hleading, splitlines_append_newline, splitlines_lines hending, List.append_assoc _ _ ['\n'],
    splitlines_append (by decide) (by simp)]
  simp only [firstLine, List.cons_append, List.append_assoc, List.nil_append]

theorem setsOther_links : ∀ line ∈ yamlPropertyLines "source_ref_links" (.texts (sourceRefLinks compact)),
    SetsOther "source_refs" line := by
  intro line hline hkey
  cases hlinks : sourceRefLinks compact with
  | nil =>
    rw [hlinks] at hline
    rw [List.mem_singleton.mp hline] at hkey
    exact absurd hkey (by decide)
  | cons first rest =>
    rw [hlinks] at hline
    obtain rfl | hline := List.mem_cons.mp hline
    · exact absurd hkey (by decide)
    · obtain ⟨item, -, rfl⟩ := List.mem_map.mp hline
      rfl

/-- The property of the references holds what is on its first line. -/
theorem readFrontmatter_broken (hcodecs : Codecs env compact) (hproject : ∀ project ∈ compact.project, Unbroken project.toList)
    (hlinks : LinksOnLines compact) (hunforged : Unforged env compact)
    (hbracketed : isBracketed (sourceRefsText env compact).toList = true)
    (hfirst : trimBy isPythonWhitespace (firstLine env compact) ≠ []) :
    Keyed.lookup Prod.fst "source_refs" (readFrontmatter (universalNewlines (serializeCompact env compact))).1 =
      some ("source_refs", parseYamlValue (trimBy isPythonWhitespace (firstLine env compact))) := by
  obtain ⟨body, hlines⟩ := splitlines_serialize hcodecs hproject hlinks hbracketed
  obtain ⟨hkeys, hdistinct⟩ := compactFrontmatter_keys env compact
  have hleadingKeys : ∀ property ∈ leadingProperties env compact, isPropertyKey property.1 = true :=
    fun property hproperty => hkeys property (List.mem_of_mem_take hproperty)
  have hinside : ∀ line ∈ (leadingProperties env compact).flatMap (fun property =>
      yamlPropertyLines property.1 property.2), (!isDelimiter line) = true := by
    intro line hline
    obtain ⟨property, hproperty, hline⟩ := List.mem_flatMap.mp hline
    rw [yamlPropertyLines_notDelimiter (hleadingKeys property hproperty) line hline]
    rfl
  have hproperty : isPropertyKey "source_refs" = true := by decide
  have hdelimiter : isDelimiter delimiter = true := by decide
  have hnotRefs : isDelimiter ("source_refs".toList ++ ':' :: ' ' :: firstLine env compact) = false :=
    notDelimiter_property hproperty _
  have hleading : ((leadingProperties env compact).map Prod.fst).Nodup :=
    hdistinct.sublist ((List.take_sublist 19 _).map Prod.fst)
  have hread := readProperties .start hleadingKeys (by simpa [FrontmatterReading.start] using hleading)
  have hafter : ∀ line ∈ (splitlines ((sourceRefsText env compact).toList ++ ['\n'])).tail ++
      yamlPropertyLines "source_ref_links" (.texts (sourceRefLinks compact)), SetsOther "source_refs" line := by
    intro line hline
    obtain hline | hline := List.mem_append.mp hline
    · exact hunforged line hline
    · exact setsOther_links line hline
  have hinsideRefs : (!isDelimiter ("source_refs".toList ++ ':' :: ' ' :: firstLine env compact)) = true := by
    rw [hnotRefs]
    rfl
  have hstop : (!isDelimiter delimiter) = false := by
    rw [hdelimiter]
    rfl
  have hclosed : Holds "source_refs" (parseYamlValue (trimBy isPythonWhitespace (firstLine env compact)))
      (((leadingProperties env compact).flatMap (fun property => yamlPropertyLines property.1 property.2)).foldl
        FrontmatterReading.line .start |>.line ("source_refs".toList ++ ':' :: ' ' :: firstLine env compact)) := by
    rw [line_property hproperty, trimBy_cons_pos (by decide), if_neg hfirst]
    exact ⟨(Keyed.lookup_put).trans (if_pos rfl), by simp⟩
  obtain ⟨stop, rest, hdrop⟩ := List.exists_cons_of_ne_nil (dropWhile_append_stop (p := fun line => !isDelimiter line) hstop
    ((splitlines ((sourceRefsText env compact).toList ++ ['\n'])).tail ++
      yamlPropertyLines "source_ref_links" (.texts (sourceRefLinks compact))) body)
  unfold readFrontmatter
  rw [splitlines_universalNewlines, hlines]
  simp only [hdelimiter, if_true]
  rw [List.dropWhile_append_of_pos hinside, List.takeWhile_append_of_pos hinside,
    List.dropWhile_cons_of_pos (p := fun line => !isDelimiter line) hinsideRefs,
    List.takeWhile_cons_of_pos (p := fun line => !isDelimiter line) hinsideRefs, hdrop,
    takeWhile_append_stop (p := fun line => !isDelimiter line) hstop]
  simp only [List.foldl_append, List.foldl_cons]
  exact (hclosed.lines fun line hline => hafter line ((List.takeWhile_prefix _).subset hline)).value

/-- The first line of broken references ends before their JSON does. -/
theorem firstLine_truncated (hjson : JsonCodec env compact) (hne : compact.sourceRefs ≠ [])
    (hbroken : ¬ Unbroken (sourceRefsText env compact).toList) :
    ∃ rest, trimBy isPythonWhitespace (firstLine env compact) = '[' :: '\x7b' :: rest ∧
      env.loadsJson (String.ofList ('[' :: '\x7b' :: rest)) = none := by
  obtain ⟨inner, hopens⟩ := hjson.opens hne
  have hopen : isPythonLineBreak '[' = false := by decide
  have hbrace : isPythonLineBreak '\x7b' = false := by decide
  have hline : firstLine env compact = '[' :: '\x7b' :: (splitlines (inner ++ [']'] ++ ['\n'])).headD [] := by
    unfold firstLine
    rw [hopens, List.cons_append, List.cons_append, splitlines_cons hopen, splitlines_cons hbrace]
    rfl
  have htrim : trimBy isPythonWhitespace (firstLine env compact) =
      '[' :: '\x7b' :: ((splitlines (inner ++ [']'] ++ ['\n'])).headD []).rdropWhile isPythonWhitespace := by
    rw [hline, trimBy_cons_neg (by decide), rdropWhile_cons_neg (by decide)]
  refine ⟨_, htrim, hjson.truncated _ ?_ ?_⟩
  · have hprefix := head_splitlines_prefix (inner ++ [']'] ++ ['\n'])
    have hunbroken : Unbroken ((splitlines (inner ++ [']'] ++ ['\n'])).headD []) := by
      have hne : splitlines (inner ++ [']'] ++ ['\n']) ≠ [] := splitlines_ne_nil (by simp)
      obtain ⟨line, lines, hlines⟩ := List.exists_cons_of_ne_nil hne
      rw [hlines]
      exact (mem_splitlines (hlines ▸ List.mem_cons_self)).1
    have hshort : (splitlines (inner ++ [']'] ++ ['\n'])).headD [] <+: inner ++ [']'] := by
      obtain heq | hshort := List.prefix_concat_iff.mp hprefix
      · rw [heq] at hunbroken
        exact absurd (hunbroken '\n' (by simp)) (by decide)
      · exact hshort
    rw [hopens]
    exact (List.prefix_cons_inj _).mpr ((List.prefix_cons_inj _).mpr ((List.rdropWhile_prefix _ _).trans hshort))
  · intro hsame
    apply hbroken
    rw [← hsame, ← htrim]
    have hfirst : Unbroken (firstLine env compact) := by
      have hne : splitlines ((sourceRefsText env compact).toList ++ ['\n']) ≠ [] := splitlines_ne_nil (by simp)
      obtain ⟨line, lines, hlines⟩ := List.exists_cons_of_ne_nil hne
      unfold firstLine
      rw [hlines]
      exact (mem_splitlines (hlines ▸ List.mem_cons_self)).1
    exact hfirst.mono fun c hc => mem_of_mem_trimBy hc

/-- Where the note has the references, they were one line. -/
theorem unbroken_of_roundTrips {read : MemoryCompact} (hcodecs : Codecs env compact) (hjson : JsonCodec env compact)
    (hlinks : LinksOnLines compact) (hunforged : Unforged env compact)
    (hproject : ∀ project ∈ compact.project, Unbroken project.toList)
    (hread : readCompactFile env (serializeCompact env compact) = some read) (hrefs : read.sourceRefs = compact.sourceRefs) :
    Unbroken (sourceRefsText env compact).toList := by
  by_contra hbroken
  have hne : compact.sourceRefs ≠ [] := by
    intro hnil
    rw [hjson.empty hnil] at hbroken
    exact hbroken (by decide)
  obtain ⟨rest, hfirst, hloads⟩ := firstLine_truncated hjson hne hbroken
  have hbracketed : isBracketed (sourceRefsText env compact).toList = true := by
    obtain ⟨inner, hopens⟩ := hjson.opens hne
    rw [hopens]
    unfold isBracketed
    rw [decide_eq_true_eq, ← List.cons_append, ← List.cons_append, List.getLast?_concat]
    exact ⟨rfl, rfl⟩
  obtain ⟨frontmatter, body, hfrontmatter, -, -, -, hstored⟩ := readCompactFile_frontmatter hread
  have hbrokenRefs := readFrontmatter_broken hcodecs hproject hlinks hunforged hbracketed (by rw [hfirst]; exact List.cons_ne_nil _ _)
  rw [hfrontmatter, hfirst, parseYamlValue_nested] at hbrokenRefs
  simp only at hbrokenRefs
  rw [hrefs, hbrokenRefs] at hstored
  apply hne
  rw [hstored]
  simp only [Option.map_some, sourceRefsFromFrontmatter, sourceRefsFromJson, hloads]
  split <;> rfl

/-- A compact whose links are on lines of their own comes back as it was exactly when its texts are such that the note keeps
them. One direction needs the references to set no references of their own. -/
theorem created_compact_round_trip_iff (env : CompactEnvironment φ) (hashText : String → String)
    (creation : CreationEnvironment) (payload : MemoryCompactCreate) (hcodecs : Codecs env (createdCompact creation payload))
    (hjson : JsonCodec env (createdCompact creation payload)) :
    (LinksOnLines (createdCompact creation payload) → KeptTexts env (createdCompact creation payload) →
        RoundTrips env hashText (createdCompact creation payload)) ∧
      (LinksOnLines (createdCompact creation payload) → Unforged env (createdCompact creation payload) →
        RoundTrips env hashText (createdCompact creation payload) → KeptTexts env (createdCompact creation payload)) := by
  refine ⟨fun hlinks hkept => roundTrips_of_kept hcodecs hjson hlinks hkept hashText, ?_⟩
  rintro hlinks hunforged ⟨read, hread, hsame⟩
  have hproject : ∀ project ∈ (createdCompact creation payload).project, Unbroken project.toList := by
    rw [← hsame.project]
    exact readCompactFile_project hread
  have hrefs := unbroken_of_roundTrips hcodecs hjson hlinks hunforged hproject hread hsame.sourceRefs
  have hstored := readCompactFile_serialize hcodecs ⟨hproject, hrefs, hlinks⟩
  obtain rfl := Option.some.inj (hread.symm.trans hstored)
  have hlist := (storedProject_iff _).mp hsame.project
  exact ⟨fun project hmem => ⟨hproject project hmem, hlist project hmem⟩, (storedBody_iff _).mp hsame.markdownBody, hrefs,
    (storedRefs_iff hjson).mp hsame.sourceRefs⟩

/-! ## A compact of a project and a source -/

/-- The libraries on compacts of one timestamp that have one source or none. -/
def plainEnvironment (refs : List MemoryCompactSourceRef) (text : String) : CompactEnvironment Unit where
  isoformat _ := "2026-03-04T05:06:07Z"
  parseDatetime value := if value = "2026-03-04T05:06:07Z" then some 0 else none
  upper value := String.ofList (value.toList.map Char.toUpper)
  parseInt value := if value = "1" then some 1 else none
  str _ := ""
  isZero _ := true
  dumpsJson
    | .list [] => "[]"
    | _ => text
  loadsJson value := if value = "[]" then some (.list []) else if value = text then some (sourceRefsJson refs) else none
  newUuid _ _ := "c0000000"

def plainCreation : CreationEnvironment := ⟨"a0000000", fun _ => "b0000000", 0, fun _ => "d0000000"⟩

def plainReview : ReviewPolicy where
  missingCurrentSections _ := ["Summary"]
  reviewMemoryCompact _ := ⟨.blocked, 0, 1, [], [], [], []⟩

def plainCreate (project : String) (refs : List MemoryCompactSourceRefCreate) : MemoryCompactCreate :=
  ⟨some project, 0, 0, "# Release", .draft, refs, none, none, none, none⟩

def plainSource : MemoryCompactSourceRefCreate := ⟨"context", "m1", "Port", "Notes/Port.md", none⟩

def plainSourceText : String :=
  "[\x7b\"id\":\"b0000000\",\"compact_id\":\"a0000000\",\"source_type\":\"context\",\"source_id\":\"m1\"," ++
    "\"title\":\"Port\",\"detail_path\":\"Notes/Port.md\",\"source_hash\":null\x7d]"

theorem plain_codecs (refs : List MemoryCompactSourceRef) (text project : String) (sources : List MemoryCompactSourceRefCreate) :
    Codecs (plainEnvironment refs text) (createdCompact plainCreation (plainCreate project sources)) where
  id := by
    have hid : "a0000000" ≠ "" ∧ Unbroken "a0000000".toList ∧ isBracketed "a0000000".toList = false := by decide
    exact hid
  instants := by
    have hinstant : "2026-03-04T05:06:07Z" ≠ "" ∧ Unbroken "2026-03-04T05:06:07Z".toList ∧
        isBracketed "2026-03-04T05:06:07Z".toList = false := by decide
    intro instant hmem
    have hzero : instant = 0 := by
      simpa [MemoryCompact.instants, createdCompact, plainCreation, plainCreate] using hmem
    subst hzero
    refine ⟨hinstant.1, hinstant.2.1, hinstant.2.2, ?_⟩
    simp only [plainEnvironment, if_true]
  scores := by
    intro n hmem
    have hone : n = 1 := by simpa [createdCompact, plainCreate] using hmem
    subst hone
    have hdigit : String.ofList (Markdown.intText 1) = "1" := by decide
    simp only [plainEnvironment, hdigit, if_true]
  hashes := by
    have hhashes : ∀ text ∈ ["d0000000", "memory-compact-v2"], Unbroken text.toList ∧ isBracketed text.toList = false := by
      decide
    exact hhashes
  upper := by
    have hupper : String.ofList ("DRAFT".toList.map Char.toUpper) = "DRAFT" := by decide
    exact hupper

/-- A note that has a project and a source keeps both. -/
theorem created_compact_round_trip_iff_sourced :
    ∃ env : CompactEnvironment Unit, ∃ hashText : String → String,
      RoundTrips env hashText (createdCompact plainCreation (plainCreate "atlas" [plainSource])) := by
  refine ⟨plainEnvironment (createdSourceRefs plainCreation (plainCreate "atlas" [plainSource])) plainSourceText, id, ?_⟩
  have hwritten : sourceRefsText (plainEnvironment (createdSourceRefs plainCreation (plainCreate "atlas" [plainSource])) plainSourceText)
      (createdCompact plainCreation (plainCreate "atlas" [plainSource])) = plainSourceText := rfl
  refine (created_compact_round_trip_iff _ _ _ _ (plain_codecs ..) ?_).1 ?_ ?_
  · constructor
    · intro hempty
      cases hempty
    · intro _
      have hopens : plainSourceText.toList = '[' :: '\x7b' :: ((plainSourceText.toList.drop 2).dropLast ++ [']']) := by
        decide +kernel
      exact ⟨_, (congrArg String.toList hwritten).trans hopens⟩
    · have htext : plainSourceText ≠ "[]" := by decide +kernel
      rw [hwritten]
      simp only [plainEnvironment, if_neg htext, if_true]
      rfl
    · intro part hpart hne
      have hshort : String.ofList part ≠ plainSourceText := by
        rintro hsame
        apply hne
        rw [hwritten, ← hsame, String.toList_ofList]
      have hempty : String.ofList part ≠ "[]" := by
        intro hsame
        have hpart' : "[]".toList <+: plainSourceText.toList := by
          rw [← hsame, String.toList_ofList, ← hwritten]
          exact hpart
        exact absurd hpart' (by decide +kernel)
      simp only [plainEnvironment, if_neg hempty, if_neg hshort]
    · decide
  · decide +kernel
  · constructor
    · decide
    · decide
    · decide +kernel
    · decide

/-- The name of a project in brackets is read as a list. -/
theorem compact_project_lost :
    ∃ payload, normalizedCreate plainReview (plainCreate "[atlas]" []) 0 = .ok payload ∧
      readCompactFile (plainEnvironment [] "[]") (serializeCompact (plainEnvironment [] "[]") (createdCompact plainCreation payload)) =
        some { createdCompact plainCreation payload with project := none } := by
  refine ⟨plainCreate "[atlas]" [], ?_, ?_⟩
  · rfl
  · rw [readCompactFile_serialize (plain_codecs [] "[]" "[atlas]" []) ⟨by decide, by decide, by decide⟩]
    decide

end Alexandria.Compacts
