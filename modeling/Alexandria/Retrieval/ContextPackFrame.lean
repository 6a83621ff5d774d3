import Alexandria.Retrieval.ContextPack

/-! # The frame of a context pack

Everything of the pack but the contents and the references is its frame. The contents never take more than what the frame and
the kept references leave, so the pack is whole whenever the frame fits the limit; the header lines are not bounded, and a frame
beyond the limit is cut.
-/

namespace Alexandria.Retrieval
set_option autoImplicit false

open Text

/-! ## Lines -/

section Lines
variable {a b lines : List (List Char)}

/-- The characters of the lines with a line feed behind each. -/
def linesLength (lines : List (List Char)) : ℕ := (lines.map fun line => line.length + 1).sum

theorem linesLength_cons (line : List Char) : linesLength (line :: lines) = line.length + 1 + linesLength lines := rfl

theorem linesLength_append : linesLength (a ++ b) = linesLength a + linesLength b := by
  unfold linesLength
  rw [List.map_append, List.sum_append]

theorem intercalate_append (ha : a ≠ []) (hb : b ≠ []) :
    ['\n'].intercalate (a ++ b) = ['\n'].intercalate a ++ '\n' :: ['\n'].intercalate b := by
  induction a with
  | nil => exact absurd rfl ha
  | cons line a ih =>
    by_cases hrest : a = []
    · subst hrest
      rw [List.singleton_append, List.intercalate_cons_of_ne_nil hb, List.intercalate_singleton, List.append_assoc]
      rfl
    · rw [List.cons_append, List.intercalate_cons_of_ne_nil (List.append_ne_nil_of_left_ne_nil hrest b),
        List.intercalate_cons_of_ne_nil hrest, ih hrest]
      simp only [List.append_assoc]

theorem length_intercalate (h : lines ≠ []) : (['\n'].intercalate lines).length + 1 = linesLength lines := by
  induction lines with
  | nil => exact absurd rfl h
  | cons line lines ih =>
    by_cases hrest : lines = []
    · subst hrest
      rw [List.intercalate_singleton]
      rfl
    · rw [List.intercalate_cons_of_ne_nil hrest, List.length_append, List.length_append, Nat.add_assoc, ih hrest]
      rfl

theorem intercalate_infix (hb : b ≠ []) (h : b <:+: lines) : ['\n'].intercalate b <:+: ['\n'].intercalate lines := by
  obtain ⟨before, after, rfl⟩ := h
  have hfront : ['\n'].intercalate b <:+ ['\n'].intercalate (before ++ b) := by
    by_cases hbefore : before = []
    · rw [hbefore, List.nil_append]
    · rw [intercalate_append hbefore hb]
      exact (List.suffix_cons _ _).trans (List.suffix_append _ _)
  by_cases hafter : after = []
  · rw [hafter, List.append_nil]
    exact hfront.isInfix
  · rw [intercalate_append (List.append_ne_nil_of_right_ne_nil before hb) hafter]
    exact hfront.isInfix.trans (List.prefix_append _ _).isInfix

end Lines

section Pack
variable {σ φ : Type}

/-! ## The selected matches -/

/-- The matches kept so far: one for each canonical id, each under its own. -/
structure BestOf (candidates : List (ContextSearchMatch σ φ)) (best : List (String × ContextSearchMatch σ φ)) : Prop where
  nodup : (best.map Prod.fst).Nodup
  keyed : ∀ entry ∈ best, entry.1 = canonicalContextId entry.2.context
  candidate : ∀ entry ∈ best, entry.2 ∈ candidates

theorem BestOf.put {candidates : List (ContextSearchMatch σ φ)} {best : List (String × ContextSearchMatch σ φ)}
    {found : ContextSearchMatch σ φ} (h : BestOf candidates best) (hfound : found ∈ candidates) :
    BestOf candidates (Keyed.put Prod.fst (canonicalContextId found.context, found) best) where
  nodup := Keyed.nodup_put h.nodup
  keyed entry hentry := by
    obtain rfl | ⟨hentry, -⟩ := Keyed.mem_put.mp hentry
    · rfl
    · exact h.keyed entry hentry
  candidate entry hentry := by
    obtain rfl | ⟨hentry, -⟩ := Keyed.mem_put.mp hentry
    · exact hfound
    · exact h.candidate entry hentry

variable [LinearOrder σ]

theorem BestOf.keepBest {candidates : List (ContextSearchMatch σ φ)} {best : List (String × ContextSearchMatch σ φ)}
    {found : ContextSearchMatch σ φ} (h : BestOf candidates best) (hfound : found ∈ candidates) :
    BestOf candidates (keepBest best found) := by
  unfold Retrieval.keepBest
  split
  · exact h.put hfound
  · split
    · exact h.put hfound
    · exact h

theorem BestOf.foldl_keepBest {candidates found : List (ContextSearchMatch σ φ)}
    {best : List (String × ContextSearchMatch σ φ)} (h : BestOf candidates best) (hfound : ∀ m ∈ found, m ∈ candidates) :
    BestOf candidates (found.foldl Retrieval.keepBest best) := by
  induction found generalizing best with
  | nil => exact h
  | cons m found ih =>
    exact ih (h.keepBest (hfound m List.mem_cons_self)) fun k hk => hfound k (List.mem_cons_of_mem m hk)

variable (env : PackEnvironment σ) (found : List (ContextSearchMatch σ φ))

theorem bestOf_filter : BestOf (found.filter (recallable env)) ((found.filter (recallable env)).foldl keepBest []) :=
  BestOf.foldl_keepBest ⟨List.nodup_nil, fun _ h => (nomatch h), fun _ h => (nomatch h)⟩ fun _ h => h

variable {env found} in
theorem mem_selectPackMatches {m : ContextSearchMatch σ φ} (h : m ∈ selectPackMatches env found) :
    m ∈ found ∧ recallable env m = true := by
  have hvalue := (List.mem_insertionSort _).mp (List.mem_of_mem_take h)
  obtain ⟨entry, hentry, rfl⟩ := List.mem_map.mp hvalue
  exact List.mem_filter.mp ((bestOf_filter env found).candidate entry hentry)

/-- Of each canonical id one match is selected. -/
theorem nodup_selectPackMatches : ((selectPackMatches env found).map fun m => canonicalContextId m.context).Nodup := by
  have hbest := bestOf_filter env found
  unfold selectPackMatches
  generalize (found.filter (recallable env)).foldl keepBest [] = best at hbest ⊢
  have hkeys : (best.map Prod.snd).map (fun m => canonicalContextId m.context) = best.map Prod.fst := by
    rw [List.map_map]
    exact List.map_congr_left fun entry hentry => (hbest.keyed entry hentry).symm
  have hsorted : (((best.map Prod.snd).insertionSort fun a b => b.score ≤ a.score).map
      fun m => canonicalContextId m.context).Nodup := by
    refine ((List.perm_insertionSort _ _).map _).nodup_iff.mpr ?_
    rw [hkeys]
    exact hbest.nodup
  exact hsorted.sublist ((List.take_sublist _ _).map _)

/-- The matches come from one store: a context id stands for one record. -/
def OfOneStore (found : List (ContextSearchMatch σ φ)) : Prop :=
  ∀ m ∈ found, ∀ k ∈ found, m.context.id = k.context.id → canonicalContextId m.context = canonicalContextId k.context

variable {found} in
theorem nodup_ids (hstore : OfOneStore found) : ((selectPackMatches env found).map fun m => m.context.id).Nodup := by
  have hcanonical := nodup_selectPackMatches env found
  refine (List.nodup_map_iff_inj_on (List.Nodup.of_map _ hcanonical)).mpr fun m hm k hk hid => ?_
  exact List.inj_on_of_nodup_map hcanonical hm hk
    (hstore m (mem_selectPackMatches hm).1 k (mem_selectPackMatches hk).1 hid)

omit [LinearOrder σ] in
/-- The state of a match that is recalled is one the enumeration knows. -/
theorem lifecycleStatus_recallable {m : ContextSearchMatch σ φ} (h : recallable env m = true) :
    ∃ status, lifecycleStatus env m.context = some status := by
  unfold recallable at h
  rw [Bool.and_eq_true, Bool.and_eq_true, Bool.not_eq_true', List.contains_iff_mem] at h
  obtain ⟨⟨hactive, hstatus⟩, hlifecycle⟩ := h
  have hstored : ∃ status, ContextRecallLifecycleStatus.parse m.context.status.value = some status := by
    simp only [ContextStorageStatus.defaultRecall, List.mem_cons, List.not_mem_nil, or_false] at hstatus
    obtain hstatus | hstatus | hstatus := hstatus
    · exact ⟨.saved, by rw [hstatus]; decide⟩
    · exact ⟨.savedWithWarnings, by rw [hstatus]; decide⟩
    · exact ⟨.redactedAndSaved, by rw [hstatus]; decide⟩
  unfold lifecycleStatus
  cases htext : nonemptyText (m.context.contextMetadata.get "lifecycle_status") with
  | none =>
    simp only [hactive, Bool.false_eq_true, if_false]
    exact hstored
  | some text =>
    unfold nonemptyText at htext
    split at htext
    · rename_i value heq
      rw [heq] at hlifecycle
      split at htext
      · cases htext
      · cases htext
        simp only [packLifecycleStatuses, List.contains_iff_mem, List.mem_cons, List.not_mem_nil, or_false] at hlifecycle
        obtain hlower | hlower := hlifecycle
        · exact ⟨.active, (congrArg ContextRecallLifecycleStatus.parse (env.upper_active _ hlower)).trans (by decide)⟩
        · exact ⟨.current, (congrArg ContextRecallLifecycleStatus.parse (env.upper_current _ hlower)).trans (by decide)⟩
    · cases htext

end Pack

/-! ## The pack as a text of its contents -/

section Text
variable {σ φ : Type} (env : PackEnvironment σ)

def headerLines (entryNumber : ℕ) (m : ContextSearchMatch σ φ) : List (List Char) := (matchHeader env entryNumber m).getD []

def entryTexts (content : ContextSearchMatch σ φ → List Char) : ℕ → List (ContextSearchMatch σ φ) → List (List Char)
  | _, [] => []
  | entryNumber, m :: rest =>
    headerLines env entryNumber m ++ [[], content m, []] ++ entryTexts content (entryNumber + 1) rest

def sectionTexts (content : ContextSearchMatch σ φ → List Char) :
    ℕ → List (String × List (ContextSearchMatch σ φ)) → List (List Char)
  | _, [] => []
  | entryNumber, (heading, found) :: rest =>
    ("## ".toList ++ heading.toList) :: [] ::
      (entryTexts env content entryNumber found ++ sectionTexts content (entryNumber + found.length) rest)

/-- The pack down to the heading of the references, with the given contents. -/
def headText (query : String) (content : ContextSearchMatch σ φ → List Char) (selected : List (ContextSearchMatch σ φ)) :
    List Char :=
  ['\n'].intercalate (openingLines query ++ sectionTexts env content 1 (packSections selected) ++ [evidenceHeading])

/-- What stands behind the heading of the references. -/
def referenceTail (references : List (List Char)) : List Char :=
  '\n' :: '\n' :: (['\n'].intercalate (referenceLines references)).rdropWhile isPythonWhitespace ++ ['\n']

def contentOf (contentByContext : List (String × List Char)) (m : ContextSearchMatch σ φ) : List Char :=
  ((Keyed.lookup Prod.fst m.context.id contentByContext).map Prod.snd).getD []

variable {env} {contentByContext : List (String × List Char)}

theorem matchHeader_eq {m : ContextSearchMatch σ φ} (hstatus : ∃ status, lifecycleStatus env m.context = some status)
    (entryNumber : ℕ) : matchHeader env entryNumber m = some (headerLines env entryNumber m) := by
  obtain ⟨status, hstatus⟩ := hstatus
  unfold headerLines matchHeader retrievalMetadata
  rw [hstatus]
  rfl

theorem entryLines_eq {found : List (ContextSearchMatch σ φ)}
    (hstatus : ∀ m ∈ found, ∃ status, lifecycleStatus env m.context = some status)
    (hcontent : ∀ m ∈ found, m.context.id ∈ contentByContext.map Prod.fst) (entryNumber : ℕ) :
    entryLines env contentByContext entryNumber found = some (entryTexts env (contentOf contentByContext) entryNumber found) := by
  induction found generalizing entryNumber with
  | nil => rfl
  | cons m found ih =>
    have hlookup : ∃ entry, Keyed.lookup Prod.fst m.context.id contentByContext = some entry := by
      rw [← Option.isSome_iff_exists]
      refine Option.isSome_iff_ne_none.mpr fun hnone => ?_
      obtain ⟨entry, hentry, hid⟩ := List.mem_map.mp (hcontent m List.mem_cons_self)
      exact Keyed.lookup_eq_none.mp hnone entry hentry hid
    obtain ⟨entry, hentry⟩ := hlookup
    have hheader := matchHeader_eq (hstatus m List.mem_cons_self) entryNumber
    have hcontent₁ : contentOf contentByContext m = entry.2 := by
      unfold contentOf
      rw [hentry]
      rfl
    have hrest := ih (fun k hk => hstatus k (List.mem_cons_of_mem m hk)) (fun k hk => hcontent k (List.mem_cons_of_mem m hk))
      (entryNumber + 1)
    unfold entryLines entryTexts
    rw [hentry, hrest, hcontent₁]
    unfold matchLines
    rw [Option.bind_eq_bind, Option.bind_some, hheader]
    rfl

theorem sectionLines_eq {sections : List (String × List (ContextSearchMatch σ φ))}
    (hstatus : ∀ part ∈ sections, ∀ m ∈ part.2, ∃ status, lifecycleStatus env m.context = some status)
    (hcontent : ∀ part ∈ sections, ∀ m ∈ part.2, m.context.id ∈ contentByContext.map Prod.fst) (entryNumber : ℕ) :
    sectionLines env contentByContext entryNumber sections =
      some (sectionTexts env (contentOf contentByContext) entryNumber sections) := by
  induction sections generalizing entryNumber with
  | nil => rfl
  | cons part sections ih =>
    have hfirst := entryLines_eq (hstatus part List.mem_cons_self) (hcontent part List.mem_cons_self) entryNumber
    have hrest := ih (fun k hk => hstatus k (List.mem_cons_of_mem part hk))
      (fun k hk => hcontent k (List.mem_cons_of_mem part hk)) (entryNumber + part.2.length)
    unfold sectionLines sectionTexts
    rw [hfirst, hrest]
    rfl

/-- The strip at the end of the rendering takes nothing but blanks of the last reference. -/
theorem trim_pack (query : String) (entries : List (List Char)) (references : List (List Char)) :
    trimBy isPythonWhitespace (['\n'].intercalate
      (openingLines query ++ entries ++ [evidenceHeading, []] ++ referenceLines references)) ++ ['\n'] =
      ['\n'].intercalate (openingLines query ++ entries ++ [evidenceHeading]) ++ referenceTail references := by
  have hreferences : ∃ line lines, referenceLines references = ('-' :: line) :: lines := by
    unfold referenceLines
    split
    · exact ⟨" none".toList, [], rfl⟩
    · rename_i hnonempty
      cases references with
      | nil => exact absurd rfl hnonempty
      | cons reference references => exact ⟨' ' :: reference, references.map fun r => "- ".toList ++ r, rfl⟩
  obtain ⟨line, lines, hlines⟩ := hreferences
  have hopening : ∃ rest, ['\n'].intercalate (openingLines query ++ entries ++ [evidenceHeading]) = '#' :: rest :=
    ⟨_, rfl⟩
  have htail : ∃ rest, ['\n'].intercalate (referenceLines references) = '-' :: rest := by
    rw [hlines]
    cases lines with
    | nil => exact ⟨line, List.intercalate_singleton⟩
    | cons next lines => exact ⟨_, rfl⟩
  have hsplit : ['\n'].intercalate (openingLines query ++ entries ++ [evidenceHeading, []] ++ referenceLines references) =
      ['\n'].intercalate (openingLines query ++ entries ++ [evidenceHeading]) ++ '\n' :: '\n' ::
        ['\n'].intercalate (referenceLines references) := by
    have hbehind : ['\n'].intercalate ([] :: referenceLines references) =
        '\n' :: ['\n'].intercalate (referenceLines references) := by
      rw [List.intercalate_cons_of_ne_nil (by rw [hlines]; exact List.cons_ne_nil _ _)]
      rfl
    rw [← hbehind, ← intercalate_append (List.append_ne_nil_of_right_ne_nil _ (List.cons_ne_nil _ _)) (List.cons_ne_nil _ _)]
    simp only [List.append_assoc, List.cons_append, List.nil_append]
  rw [hsplit]
  unfold referenceTail
  generalize ['\n'].intercalate (openingLines query ++ entries ++ [evidenceHeading]) = head at hopening ⊢
  obtain ⟨rest, rfl⟩ := hopening
  obtain ⟨references', hreferences'⟩ := htail
  rw [hreferences', List.cons_append, trimBy_cons_neg (by decide), rdropWhile_cons_neg (by decide)]
  have hkept := rdropWhile_append_last (p := isPythonWhitespace) (c := '-') (by decide) (rest ++ ['\n', '\n']) references'
  rw [List.append_assoc] at hkept
  show '#' :: (rest ++ (['\n', '\n'] ++ '-' :: references')).rdropWhile isPythonWhitespace ++ ['\n'] = _
  rw [hkept]
  simp only [List.append_assoc, List.cons_append, List.nil_append]

theorem renderContextPack_eq {selected : List (ContextSearchMatch σ φ)}
    (hstatus : ∀ m ∈ selected, ∃ status, lifecycleStatus env m.context = some status)
    (hcontent : ∀ m ∈ selected, m.context.id ∈ contentByContext.map Prod.fst) (query : String)
    (references : List (List Char)) :
    renderContextPack env query (packSections selected) references contentByContext =
      some (headText env query (contentOf contentByContext) selected ++ referenceTail references) := by
  have hmem : ∀ part ∈ packSections selected, ∀ m ∈ part.2, m ∈ selected := by
    intro part hpart m hm
    obtain ⟨heading, -, rfl⟩ := List.mem_map.mp hpart
    exact List.mem_of_mem_filter hm
  have hlines := sectionLines_eq (fun part hpart m hm => hstatus m (hmem part hpart m hm))
    (fun part hpart m hm => hcontent m (hmem part hpart m hm)) 1
  unfold renderContextPack
  rw [hlines, Option.map_some, trim_pack]
  rfl

/-! ## Lengths -/

variable (env)

theorem linesLength_entryTexts (content : ContextSearchMatch σ φ → List Char) (entryNumber : ℕ)
    (found : List (ContextSearchMatch σ φ)) :
    linesLength (entryTexts env content entryNumber found) =
      linesLength (entryTexts env (fun _ => []) entryNumber found) + (found.map fun m => (content m).length).sum := by
  induction found generalizing entryNumber with
  | nil => rfl
  | cons m found ih =>
    have hcontent : linesLength [[], content m, []] = linesLength [[], [], []] + (content m).length := by
      simp only [linesLength, List.map_cons, List.map_nil, List.sum_cons, List.sum_nil, List.length_nil]
      omega
    unfold entryTexts
    rw [linesLength_append, linesLength_append, linesLength_append, linesLength_append, ih, hcontent, List.map_cons,
      List.sum_cons]
    omega

theorem linesLength_sectionTexts (content : ContextSearchMatch σ φ → List Char) (entryNumber : ℕ)
    (sections : List (String × List (ContextSearchMatch σ φ))) :
    linesLength (sectionTexts env content entryNumber sections) =
      linesLength (sectionTexts env (fun _ => []) entryNumber sections) +
        (sections.map fun part => (part.2.map fun m => (content m).length).sum).sum := by
  induction sections generalizing entryNumber with
  | nil => rfl
  | cons part sections ih =>
    unfold sectionTexts
    simp only [linesLength_cons, linesLength_append]
    rw [linesLength_entryTexts env content, ih, List.map_cons, List.sum_cons]
    omega

/-- Every selected match is in one section. -/
theorem sum_packSections (measure : ContextSearchMatch σ φ → ℕ) (selected : List (ContextSearchMatch σ φ)) :
    ((packSections selected).map fun part => (part.2.map measure).sum).sum = (selected.map measure).sum := by
  induction selected with
  | nil => rfl
  | cons m selected ih =>
    rw [List.map_cons, List.sum_cons, ← ih]
    cases hscope : m.context.scope <;>
      simp [packSections, sectionHeadings, sectionForScope, hscope] <;> omega

/-- Each character of the contents makes the pack one character longer, and nothing else changes. -/
theorem length_headText (query : String) (content : ContextSearchMatch σ φ → List Char)
    (selected : List (ContextSearchMatch σ φ)) :
    (headText env query content selected).length =
      (headText env query (fun _ => []) selected).length + (selected.map fun m => (content m).length).sum := by
  have hlength : ∀ content : ContextSearchMatch σ φ → List Char, (headText env query content selected).length + 1 =
      linesLength (openingLines query) + linesLength (sectionTexts env content 1 (packSections selected)) +
        linesLength [evidenceHeading] := by
    intro content
    unfold headText
    rw [length_intercalate (List.append_ne_nil_of_right_ne_nil _ (List.cons_ne_nil _ _)), linesLength_append,
      linesLength_append]
  have hfull := hlength content
  have hempty := hlength fun _ => []
  rw [linesLength_sectionTexts env content, sum_packSections] at hfull
  omega

theorem headText_congr {content other : ContextSearchMatch σ φ → List Char} {selected : List (ContextSearchMatch σ φ)}
    (h : ∀ m ∈ selected, content m = other m) (query : String) :
    headText env query content selected = headText env query other selected := by
  have hentries : ∀ (found : List (ContextSearchMatch σ φ)) (entryNumber : ℕ), (∀ m ∈ found, m ∈ selected) →
      entryTexts env content entryNumber found = entryTexts env other entryNumber found := by
    intro found
    induction found with
    | nil => exact fun _ _ => rfl
    | cons m found ih =>
      intro entryNumber hmem
      unfold entryTexts
      rw [h m (hmem m List.mem_cons_self), ih _ fun k hk => hmem k (List.mem_cons_of_mem m hk)]
  have hsections : ∀ (sections : List (String × List (ContextSearchMatch σ φ))) (entryNumber : ℕ),
      (∀ part ∈ sections, ∀ m ∈ part.2, m ∈ selected) →
      sectionTexts env content entryNumber sections = sectionTexts env other entryNumber sections := by
    intro sections
    induction sections with
    | nil => exact fun _ _ => rfl
    | cons part sections ih =>
      intro entryNumber hmem
      unfold sectionTexts
      rw [hentries part.2 entryNumber (hmem part List.mem_cons_self), ih _ fun k hk => hmem k (List.mem_cons_of_mem part hk)]
  unfold headText
  rw [hsections]
  intro part hpart m hm
  obtain ⟨heading, -, rfl⟩ := List.mem_map.mp hpart
  exact List.mem_of_mem_filter hm

/-! ## Header lines -/

theorem headerLines_infix_entryTexts (content : ContextSearchMatch σ φ → List Char) {m : ContextSearchMatch σ φ}
    {found : List (ContextSearchMatch σ φ)} (hm : m ∈ found) (entryNumber : ℕ) :
    ∃ number, headerLines env number m <:+: entryTexts env content entryNumber found := by
  induction found generalizing entryNumber with
  | nil => cases hm
  | cons k found ih =>
    unfold entryTexts
    obtain rfl | hm := List.mem_cons.mp hm
    · refine ⟨entryNumber, (List.IsPrefix.trans ?_ (List.prefix_append _ _)).isInfix⟩
      exact List.prefix_append _ _
    · obtain ⟨number, hnumber⟩ := ih hm (entryNumber + 1)
      exact ⟨number, hnumber.trans (List.suffix_append _ _).isInfix⟩

theorem headerLines_infix_sectionTexts (content : ContextSearchMatch σ φ → List Char) {m : ContextSearchMatch σ φ}
    {sections : List (String × List (ContextSearchMatch σ φ))} (hm : ∃ part ∈ sections, m ∈ part.2) (entryNumber : ℕ) :
    ∃ number, headerLines env number m <:+: sectionTexts env content entryNumber sections := by
  induction sections generalizing entryNumber with
  | nil =>
    obtain ⟨part, hpart, -⟩ := hm
    cases hpart
  | cons first sections ih =>
    have hbehind : entryTexts env content entryNumber first.2 ++
        sectionTexts env content (entryNumber + first.2.length) sections <:+:
        sectionTexts env content entryNumber (first :: sections) :=
      ((List.suffix_cons _ _).trans (List.suffix_cons _ _)).isInfix
    obtain ⟨part, hpart, hm⟩ := hm
    obtain rfl | hpart := List.mem_cons.mp hpart
    · obtain ⟨number, hnumber⟩ := headerLines_infix_entryTexts env content hm entryNumber
      exact ⟨number, (hnumber.trans (List.prefix_append _ _).isInfix).trans hbehind⟩
    · obtain ⟨number, hnumber⟩ := ih ⟨part, hpart, hm⟩ (entryNumber + first.2.length)
      exact ⟨number, (hnumber.trans (List.suffix_append _ _).isInfix).trans hbehind⟩

theorem mem_packSections {m : ContextSearchMatch σ φ} {selected : List (ContextSearchMatch σ φ)} (hm : m ∈ selected) :
    ∃ part ∈ packSections selected, m ∈ part.2 := by
  have hheading : sectionForScope m.context.scope ∈ sectionHeadings := by
    cases m.context.scope <;> decide
  exact ⟨_, List.mem_map_of_mem hheading, List.mem_filter.mpr ⟨hm, decide_eq_true rfl⟩⟩

/-- The header lines of every selected match are in the head, one below the other. -/
theorem headerLines_infix_headText (query : String) (content : ContextSearchMatch σ φ → List Char)
    {m : ContextSearchMatch σ φ} {selected : List (ContextSearchMatch σ φ)} (hm : m ∈ selected) :
    ∃ number, ∀ lines, lines ≠ [] → lines <:+: headerLines env number m →
      ['\n'].intercalate lines <:+: headText env query content selected := by
  obtain ⟨number, hnumber⟩ := headerLines_infix_sectionTexts env content (mem_packSections hm) 1
  refine ⟨number, fun lines hnonempty hlines => intercalate_infix hnonempty ((hlines.trans hnumber).trans ?_)⟩
  exact (List.suffix_append _ _).isInfix.trans (List.prefix_append _ _).isInfix

theorem evidenceHeading_infix_headText (query : String) (content : ContextSearchMatch σ φ → List Char)
    (selected : List (ContextSearchMatch σ φ)) : evidenceHeading <:+: headText env query content selected := by
  have hheading := intercalate_infix (List.cons_ne_nil evidenceHeading []) (List.suffix_append
    (openingLines query ++ sectionTexts env content 1 (packSections selected)) [evidenceHeading]).isInfix
  rwa [List.intercalate_singleton] at hheading

end Text

/-! ## The shares of the contents -/

section Shares
variable {σ φ : Type}

theorem length_trimText (value : List Char) (limit : ℕ) : (trimText value limit).length = min value.length limit := by
  unfold trimText
  split_ifs with hzero hshort hone
  · rw [hzero, Nat.min_zero]
    rfl
  · exact (Nat.min_eq_left hshort).symm
  · rw [hone, Nat.min_eq_right (by omega)]
    rfl
  · rw [List.length_append, List.length_take, List.length_singleton]
    omega

theorem trimText_of_le {value : List Char} {limit : ℕ} (h : value.length ≤ limit) : trimText value limit = value := by
  unfold trimText
  split_ifs with hzero
  · rw [hzero, Nat.le_zero] at h
    exact (List.eq_nil_of_length_eq_zero h).symm
  · rfl

/-- The contents in the order of the matches. -/
def allocated : ℕ → List (ContextSearchMatch σ φ) → List (List Char)
  | _, [] => []
  | remainingBudget, m :: rest =>
    trimText (strippedContent m) (remainingBudget / (rest.length + 1)) ::
      allocated (remainingBudget - (trimText (strippedContent m) (remainingBudget / (rest.length + 1))).length) rest

/-- Every content is at most its share of what the contents before it leave. -/
def FitsShares : ℕ → List (ContextSearchMatch σ φ) → Prop
  | _, [] => True
  | remainingBudget, m :: rest => (strippedContent m).length ≤ remainingBudget / (rest.length + 1) ∧
    FitsShares (remainingBudget - (strippedContent m).length) rest

variable {budget : ℕ} {selected : List (ContextSearchMatch σ φ)}

theorem length_allocated (budget : ℕ) (selected : List (ContextSearchMatch σ φ)) :
    (allocated budget selected).length = selected.length := by
  induction selected generalizing budget with
  | nil => rfl
  | cons m selected ih => exact congrArg (· + 1) (ih _)

theorem sum_allocated_le (budget : ℕ) (selected : List (ContextSearchMatch σ φ)) :
    ((allocated budget selected).map List.length).sum ≤ budget := by
  induction selected generalizing budget with
  | nil => exact Nat.zero_le budget
  | cons m selected ih =>
    have hshare : (trimText (strippedContent m) (budget / (selected.length + 1))).length ≤ budget := by
      rw [length_trimText]
      exact (Nat.min_le_right _ _).trans (Nat.div_le_self _ _)
    have hrest := ih (budget - (trimText (strippedContent m) (budget / (selected.length + 1))).length)
    unfold allocated
    rw [List.map_cons, List.sum_cons]
    omega

theorem allocated_trimmed (budget : ℕ) (selected : List (ContextSearchMatch σ φ)) :
    List.Forall₂ (fun m content => ∃ limit, content = trimText (strippedContent m) limit) selected
      (allocated budget selected) := by
  induction selected generalizing budget with
  | nil => exact .nil
  | cons m selected ih => exact .cons ⟨_, rfl⟩ (ih _)

theorem allocated_of_fits (h : FitsShares budget selected) : allocated budget selected = selected.map strippedContent := by
  induction selected generalizing budget with
  | nil => rfl
  | cons m selected ih =>
    obtain ⟨hshare, hrest⟩ := h
    unfold allocated
    rw [trimText_of_le hshare, ih hrest]
    rfl

theorem allocateFrom_eq {contentByContext : List (String × List Char)}
    (hfresh : (contentByContext.map Prod.fst ++ selected.map fun m => m.context.id).Nodup) (budget : ℕ) :
    allocateFrom contentByContext budget selected =
      contentByContext ++ (selected.map fun m => m.context.id).zip (allocated budget selected) := by
  induction selected generalizing contentByContext budget with
  | nil => exact (List.append_nil _).symm
  | cons m selected ih =>
    have habsent : m.context.id ∉ contentByContext.map Prod.fst := by
      intro hmem
      exact (List.nodup_append.mp hfresh).2.2 _ hmem _ List.mem_cons_self rfl
    unfold allocateFrom allocated
    simp only
    rw [Keyed.put_absent habsent, ih, List.append_assoc]
    · rfl
    · rw [List.map_append, List.append_assoc]
      exact hfresh

/-- Read by the context ids, the contents are those of the matches. -/
theorem map_contentOf_zip {contents : List (List Char)} (hids : (selected.map fun m => m.context.id).Nodup)
    (hlength : contents.length = selected.length) :
    selected.map (contentOf ((selected.map fun m => m.context.id).zip contents)) = contents := by
  have hlong : (selected.map fun m => m.context.id).length = contents.length := by rw [List.length_map, hlength]
  generalize hzip : (selected.map fun m => m.context.id).zip contents = entries
  have hkeys : entries.map Prod.fst = selected.map fun m => m.context.id := by rw [← hzip, List.map_fst_zip hlong.le]
  have hvalues : entries.map Prod.snd = contents := by rw [← hzip, List.map_snd_zip hlong.ge]
  calc selected.map (contentOf entries)
      = (selected.map fun m => m.context.id).map
          (fun id => ((Keyed.lookup Prod.fst id entries).map Prod.snd).getD []) := by
        rw [List.map_map]
        rfl
    _ = entries.map Prod.snd := by
        rw [← hkeys, List.map_map]
        refine List.map_congr_left fun entry hentry => ?_
        have hstored : Keyed.lookup Prod.fst entry.1 entries = some entry :=
          (Keyed.lookup_eq_some (hkeys.symm ▸ hids)).mpr ⟨hentry, rfl⟩
        rw [Function.comp_apply, hstored]
        rfl
    _ = contents := hvalues

theorem contentOf_emptyContent (hids : (selected.map fun m => m.context.id).Nodup) (m : ContextSearchMatch σ φ) :
    contentOf (emptyContent selected) m = [] := by
  have hentries : emptyContent selected = selected.map fun k => (k.context.id, []) := by
    refine Keyed.ofList_eq_self ?_
    rw [List.map_map]
    exact hids
  unfold contentOf
  cases hlookup : Keyed.lookup Prod.fst m.context.id (emptyContent selected) with
  | none => rfl
  | some entry =>
    have hentry := (Keyed.lookup_mem hlookup).1
    rw [hentries] at hentry
    obtain ⟨k, -, rfl⟩ := List.mem_map.mp hentry
    rfl

end Shares

/-! ## The kept references -/

/-- While the pack is too long a reference is taken off its end: the longest front that fits remains, or nothing. -/
theorem dropReferences_eq (render : List (List Char) → List Char) (reversed : List (List Char)) :
    ∃ kept, dropReferences (fun references => some (render references)) reversed = some (kept, render kept) ∧
      kept <+: reversed.reverse ∧ (kept = [] ∨ (render kept).length ≤ maxContextPackCharacters) ∧
      ∀ longer, longer <+: reversed.reverse → (render longer).length ≤ maxContextPackCharacters → longer <+: kept := by
  induction reversed with
  | nil => exact ⟨[], rfl, List.prefix_rfl, .inl rfl, fun _ hlonger _ => hlonger⟩
  | cons last front ih =>
    obtain ⟨kept, hdrop, hfront, hfits, hlongest⟩ := ih
    by_cases hlong : maxContextPackCharacters < (render (last :: front).reverse).length
    · refine ⟨kept, ?_, ?_, hfits, fun longer hlonger hshort => ?_⟩
      · unfold dropReferences
        rw [Option.bind_eq_bind, Option.bind_some, if_pos hlong]
        exact hdrop
      · rw [List.reverse_cons]
        exact hfront.trans (List.prefix_append _ _)
      · rw [List.reverse_cons] at hlonger hlong
        obtain rfl | hlonger := List.prefix_concat_iff.mp hlonger
        · exact absurd hshort (Nat.not_le_of_lt hlong)
        · exact hlongest longer hlonger hshort
    · refine ⟨(last :: front).reverse, ?_, List.prefix_rfl, .inr (Nat.le_of_not_lt hlong), fun _ hlonger _ => hlonger⟩
      unfold dropReferences
      rw [Option.bind_eq_bind, Option.bind_some, if_neg hlong]

/-! ## The pack -/

section Frame
variable {σ φ : Type} [LinearOrder σ] (env : PackEnvironment σ) (query : String) (found : List (ContextSearchMatch σ φ))

/-- The pack without any content. -/
def frameText (references : List (List Char)) : List Char :=
  headText env query (fun _ => []) (selectPackMatches env found) ++ referenceTail references

/-- The longest front of the references with which the frame fits the limit, or no reference. -/
structure KeptReferences (references : List (List Char)) : Prop where
  front : references <+: evidenceReferences (selectPackMatches env found)
  fits : references = [] ∨ (frameText env query found references).length ≤ maxContextPackCharacters
  longest : ∀ longer, longer <+: evidenceReferences (selectPackMatches env found) →
    (frameText env query found longer).length ≤ maxContextPackCharacters → longer <+: references

/-- What the pack promises for the references that it keeps: it is bounded, it begins with the whole head in which only contents
are shortened, the header lines of every selected match and the heading of the references are in it, only references are cut
behind the head, and contents that are at most their shares of the rest are in it in full. -/
structure FramedPack (references : List (List Char)) (pack : List Char) : Prop where
  bounded : pack.length ≤ maxContextPackCharacters
  framed : ∃ content : ContextSearchMatch σ φ → List Char,
    (∀ m ∈ selectPackMatches env found, ∃ limit, content m = trimText (strippedContent m) limit) ∧
      headText env query content (selectPackMatches env found) <+: pack ∧
      pack <+: headText env query content (selectPackMatches env found) ++ referenceTail references
  headers : ∀ m ∈ selectPackMatches env found, ∃ entryNumber lines, matchHeader env entryNumber m = some lines ∧
    ['\n'].intercalate lines <:+: pack
  evidence : evidenceHeading <:+: pack
  full : FitsShares (maxContextPackCharacters - (frameText env query found references).length) (selectPackMatches env found) →
    headText env query strippedContent (selectPackMatches env found) <+: pack

/-- The pack of the matches is framed. -/
def Framed : Prop :=
  ∃ references pack, KeptReferences env query found references ∧ buildContextPack env query found = some pack ∧
    FramedPack env query found references pack

variable {found}

/-- The contents that the pack shows. -/
theorem buildContextPack_eq (hstore : OfOneStore found) :
    ∃ references content, KeptReferences env query found references ∧
      (selectPackMatches env found).map content =
        allocated (maxContextPackCharacters - (frameText env query found references).length) (selectPackMatches env found) ∧
      buildContextPack env query found = some ((headText env query content (selectPackMatches env found) ++
        referenceTail references).take maxContextPackCharacters) := by
  have hids := nodup_ids env hstore
  have hstatus : ∀ m ∈ selectPackMatches env found, ∃ status, lifecycleStatus env m.context = some status := fun m hm =>
    lifecycleStatus_recallable env (mem_selectPackMatches hm).2
  unfold frameText
  have hrender : ∀ contentByContext : List (String × List Char),
      contentByContext.map Prod.fst = (selectPackMatches env found).map (fun m => m.context.id) → ∀ references,
      renderContextPack env query (packSections (selectPackMatches env found)) references contentByContext =
        some (headText env query (contentOf contentByContext) (selectPackMatches env found) ++ referenceTail references) := by
    intro contentByContext hkeys references
    exact renderContextPack_eq hstatus (fun m hm => hkeys ▸ List.mem_map_of_mem hm) query references
  have hemptyKeys : (emptyContent (selectPackMatches env found)).map Prod.fst =
      (selectPackMatches env found).map fun m => m.context.id := by
    unfold emptyContent
    rw [Keyed.ofList_eq_self (by rw [List.map_map]; exact hids), List.map_map]
    rfl
  have hempty : contentOf (emptyContent (selectPackMatches env found)) =
      fun _ : ContextSearchMatch σ φ => ([] : List Char) :=
    funext fun m => contentOf_emptyContent hids m
  obtain ⟨references, hdrop, hfront, hfits, hlongest⟩ := dropReferences_eq
    (fun references => headText env query (fun _ => []) (selectPackMatches env found) ++ referenceTail references)
    (evidenceReferences (selectPackMatches env found)).reverse
  rw [List.reverse_reverse] at hfront hlongest
  generalize hbudget : maxContextPackCharacters - (headText env query (fun _ => []) (selectPackMatches env found) ++
    referenceTail references).length = budget
  have hallocate : allocateContentBudget (selectPackMatches env found) budget =
      ((selectPackMatches env found).map fun m => m.context.id).zip (allocated budget (selectPackMatches env found)) := by
    unfold allocateContentBudget
    rw [allocateFrom_eq (by exact hids)]
    rfl
  have hlength := length_allocated budget (selectPackMatches env found)
  have hallocatedKeys : (allocateContentBudget (selectPackMatches env found) budget).map Prod.fst =
      (selectPackMatches env found).map fun m => m.context.id := by
    rw [hallocate, List.map_fst_zip (by rw [List.length_map, hlength])]
  refine ⟨references, contentOf (allocateContentBudget (selectPackMatches env found) budget),
    ⟨hfront, hfits, hlongest⟩, ?_, ?_⟩
  · rw [hbudget, hallocate]
    exact map_contentOf_zip hids hlength
  · have hbase : (fun references => renderContextPack env query (packSections (selectPackMatches env found)) references
        (emptyContent (selectPackMatches env found))) = fun references =>
          some (headText env query (fun _ => []) (selectPackMatches env found) ++ referenceTail references) := by
      funext references
      rw [hrender _ hemptyKeys, hempty]
    unfold buildContextPack
    simp only
    rw [hbase, hdrop, Option.bind_eq_bind, Option.bind_some]
    simp only
    rw [hbudget, hrender _ hallocatedKeys, Option.bind_eq_bind, Option.bind_some]

/-- The head without any content is at most as long as a pack. -/
def FrameFits (found : List (ContextSearchMatch σ φ)) : Prop :=
  (headText env query (fun _ => []) (selectPackMatches env found)).length ≤ maxContextPackCharacters

theorem fits_of_framed (h : Framed env query found) : FrameFits env query found := by
  obtain ⟨references, pack, -, -, hpack⟩ := h
  obtain ⟨content, -, hhead, -⟩ := hpack.framed
  calc (headText env query (fun _ => []) (selectPackMatches env found)).length
      ≤ (headText env query content (selectPackMatches env found)).length := by
        rw [length_headText env query content]
        exact Nat.le_add_right _ _
    _ ≤ pack.length := hhead.length_le
    _ ≤ maxContextPackCharacters := hpack.bounded

theorem framed_of_fits (hstore : OfOneStore found) (hfits : FrameFits env query found) : Framed env query found := by
  obtain ⟨references, content, hkept, hcontent, hbuild⟩ := buildContextPack_eq env query hstore
  have hlength : ((selectPackMatches env found).map fun m => (content m).length).sum ≤
      maxContextPackCharacters - (frameText env query found references).length := by
    have hsum := sum_allocated_le (maxContextPackCharacters - (frameText env query found references).length)
      (selectPackMatches env found)
    rw [← hcontent, List.map_map] at hsum
    exact hsum
  -- Either the frame leaves the budget that the contents share, or the budget is nothing and all contents are empty.
  have hshort : (headText env query content (selectPackMatches env found)).length ≤ maxContextPackCharacters := by
    have hframe : (headText env query (fun _ => []) (selectPackMatches env found)).length ≤
        (frameText env query found references).length := (List.prefix_append _ _).length_le
    unfold FrameFits at hfits
    rw [length_headText env query content]
    omega
  have hhead : headText env query content (selectPackMatches env found) <+:
      (headText env query content (selectPackMatches env found) ++ referenceTail references).take maxContextPackCharacters :=
    List.prefix_take_iff.mpr ⟨List.prefix_append _ _, hshort⟩
  refine ⟨references, _, hkept, hbuild, ?_, ⟨content, ?_, hhead, List.take_prefix _ _⟩, fun m hm => ?_, ?_,
    fun hshares => ?_⟩
  · exact List.length_take_le _ _
  · have htrimmed := allocated_trimmed (maxContextPackCharacters - (frameText env query found references).length)
      (selectPackMatches env found)
    rw [← hcontent, List.forall₂_map_right_iff, List.forall₂_same] at htrimmed
    exact htrimmed
  · obtain ⟨number, hlines⟩ := headerLines_infix_headText env query content hm
    have hheader := matchHeader_eq (lifecycleStatus_recallable env (mem_selectPackMatches hm).2) number
    refine ⟨number, headerLines env number m, hheader, ?_⟩
    by_cases hnone : headerLines env number m = []
    · rw [hnone]
      exact (List.nil_prefix).isInfix
    · exact (hlines _ hnone List.infix_rfl).trans hhead.isInfix
  · exact (evidenceHeading_infix_headText env query content _).trans hhead.isInfix
  · rw [allocated_of_fits hshares] at hcontent
    have hsame : ∀ m ∈ selectPackMatches env found, strippedContent m = content m := fun m hm =>
      (List.map_inj_left.mp hcontent m hm).symm
    rw [headText_congr env hsame]
    exact hhead

/-- The pack is framed exactly if its frame fits. -/
theorem framed_iff (hstore : OfOneStore found) : Framed env query found ↔ FrameFits env query found :=
  ⟨fits_of_framed env query, framed_of_fits env query hstore⟩

omit [LinearOrder σ] in
/-- A graph evidence stands in the header with its whole title. -/
theorem graphEvidenceLine_mem_headerLines {m : ContextSearchMatch σ φ}
    (hstatus : ∃ status, lifecycleStatus env m.context = some status) {item : ContextGraphEvidence}
    (hitem : item ∈ m.graphEvidence) (entryNumber : ℕ) : graphEvidenceLine item ∈ headerLines env entryNumber m := by
  have hlines : graphEvidenceLine item ∈ graphEvidenceLines m.graphEvidence := by
    unfold graphEvidenceLines
    rw [if_neg]
    · exact List.mem_cons_of_mem _ (List.mem_map_of_mem hitem)
    · intro hempty
      rw [List.isEmpty_iff.mp hempty] at hitem
      cases hitem
  obtain ⟨status, hstatus⟩ := hstatus
  unfold headerLines matchHeader retrievalMetadata
  rw [hstatus, Option.map_some, Option.map_some, Option.getD_some]
  exact List.mem_append_right _ hlines

theorem length_title_le (item : ContextGraphEvidence) :
    item.targetTitle.toList.length ≤ (graphEvidenceLine item).length := by
  unfold graphEvidenceLine
  simp only [List.length_append]
  omega

/-- No title in the graph evidence of a selected match is longer than a frame that fits. -/
theorem title_le_of_fits (hfits : FrameFits env query found) {m : ContextSearchMatch σ φ}
    (hm : m ∈ selectPackMatches env found) {item : ContextGraphEvidence} (hitem : item ∈ m.graphEvidence) :
    item.targetTitle.toList.length ≤ maxContextPackCharacters := by
  obtain ⟨number, hlines⟩ := headerLines_infix_headText env query (fun _ => []) hm
  have hmem := graphEvidenceLine_mem_headerLines env (lifecycleStatus_recallable env (mem_selectPackMatches hm).2) hitem number
  have hline : [graphEvidenceLine item] <:+: headerLines env number m := by
    obtain ⟨before, after, hsplit⟩ := List.append_of_mem hmem
    exact ⟨before, after, by rw [hsplit, List.append_assoc, List.singleton_append]⟩
  have hinfix := hlines _ (List.cons_ne_nil _ _) hline
  rw [List.intercalate_singleton] at hinfix
  exact ((length_title_le item).trans hinfix.length_le).trans hfits

end Frame

/-! ## A match with one graph evidence -/

def asciiEnvironment : PackEnvironment ℚ where
  formatScore _ := "1.0000"
  lower text := text
  upper text := if text = "active" then "ACTIVE" else if text = "current" then "CURRENT" else text
  upper_active text h := if_pos h
  upper_current text h := by
    rw [h, if_neg (by decide)]
    rfl

def evidenceMatch (title : String) : ContextSearchMatch ℚ Unit where
  context := ⟨"ctx-1", .memory, "Title", some "alexandria", .project, none, none, "codex", .saved, [], false⟩
  chunk := ⟨some "Decision", "Use one store."⟩
  score := 1
  ftsScore := some 1
  vectorScore := none
  whyRetrieved := "full text"
  graphScore := none
  graphEvidence := [⟨.lineage, "supersedes", .outgoing, "ctx-1", title, 1, "context://ctx-2"⟩]

theorem selectPackMatches_evidenceMatch (title : String) :
    selectPackMatches asciiEnvironment [evidenceMatch title] = [evidenceMatch title] := rfl

theorem ofOneStore_singleton (title : String) : OfOneStore [evidenceMatch title] := by
  intro m hm k hk _
  rw [List.mem_singleton.mp hm, List.mem_singleton.mp hk]

theorem short_evidence_framed :
    OfOneStore [evidenceMatch "Old title"] ∧ FrameFits asciiEnvironment "one store" [evidenceMatch "Old title"] ∧
      Framed asciiEnvironment "one store" [evidenceMatch "Old title"] := by
  have hfits : FrameFits asciiEnvironment "one store" [evidenceMatch "Old title"] := by
    unfold FrameFits
    rw [selectPackMatches_evidenceMatch]
    decide +kernel
  exact ⟨ofOneStore_singleton _, hfits, (framed_iff _ _ (ofOneStore_singleton _)).mpr hfits⟩

/-- A title that is longer than the pack cuts the frame. -/
theorem long_evidence_cut :
    OfOneStore [evidenceMatch (String.ofList (List.replicate 20001 'x'))] ∧
      ¬ Framed asciiEnvironment "one store" [evidenceMatch (String.ofList (List.replicate 20001 'x'))] := by
  refine ⟨ofOneStore_singleton _, fun hframed => ?_⟩
  have hselected := selectPackMatches_evidenceMatch (String.ofList (List.replicate 20001 'x'))
  have htitle := title_le_of_fits asciiEnvironment "one store" (fits_of_framed _ _ hframed)
    (hselected ▸ List.mem_cons_self) List.mem_cons_self
  rw [String.toList_ofList, List.length_replicate] at htitle
  exact absurd htitle (by decide)

end Alexandria.Retrieval
