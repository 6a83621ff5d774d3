import Alexandria.Chunking.Coverage
import Alexandria.Foundations.NearestSmaller
import Mathlib.Data.Finset.Card
import Mathlib.Order.Interval.Finset.Nat

/-! # The paths of headings

A section's path holds the headings that are open at it. `sections_for_text` closes by depth: of the open headings it keeps
as many as the own level leaves room for, whatever their levels are. So the path is the chain of the headings above, unless
a heading that is not deeper than the one before it has no heading above it at some smaller level.
-/

namespace Alexandria.Chunking
set_option autoImplicit false

open NearestSmaller Text

/-! ## Places kept by depth -/

section Depth
variable {level : ℕ → ℕ} {i n : ℕ}

/-- The open places at `n`, where a place keeps as many as its level leaves room for. -/
def openPlaces (level : ℕ → ℕ) : ℕ → List ℕ
  | 0 => [0]
  | n + 1 => (openPlaces level n).take (level (n + 1) - 1) ++ [n + 1]

theorem ancestors_levels (hpositive : ∀ p ≤ n, 0 < level p) :
    ((ancestors level n).map level).Nodup ∧
      ((ancestors level n).map level).toFinset ⊆ Finset.Icc 1 (level n) := by
  constructor
  · refine List.Nodup.of_map id ?_
    rw [List.map_id]
    refine (List.pairwise_map.mpr ?_ : ((ancestors level n).map level).Pairwise (· ≠ ·))
    exact (ancestors_sorted level n).1.imp fun h => h.2.ne
  · intro l hl
    obtain ⟨p, hp, rfl⟩ := List.mem_map.mp (List.mem_toFinset.mp hl)
    obtain ⟨hle, hopen⟩ := mem_ancestors.mp hp
    refine Finset.mem_Icc.mpr ⟨hpositive p hle, ?_⟩
    obtain hlt | rfl := Nat.lt_or_eq_of_le hle
    · exact (hopen n hlt le_rfl).le
    · exact le_rfl

theorem ancestors_length_eq (hpositive : ∀ p ≤ n, 0 < level p) :
    ((ancestors level n).map level).toFinset.card = (ancestors level n).length := by
  rw [List.toFinset_card_of_nodup (ancestors_levels hpositive).1, List.length_map]

theorem ancestors_length_le (hpositive : ∀ p ≤ n, 0 < level p) : (ancestors level n).length ≤ level n := by
  have hcard := Finset.card_le_card (ancestors_levels hpositive).2
  rw [ancestors_length_eq hpositive, Nat.card_Icc, Nat.add_sub_cancel] at hcard
  exact hcard

/-- A place has as many above it as its level says just where one of every smaller level is above it. -/
theorem ancestors_full_iff (hpositive : ∀ p ≤ n, 0 < level p) :
    (ancestors level n).length = level n ↔
      ∀ l, 0 < l → l < level n → ∃ p < n, level p = l ∧ ∀ j, p < j → j ≤ n → l < level j := by
  constructor
  · intro hlength l hl hlt
    have hall : ((ancestors level n).map level).toFinset = Finset.Icc 1 (level n) := by
      refine Finset.eq_of_subset_of_card_le (ancestors_levels hpositive).2 ?_
      rw [ancestors_length_eq hpositive, hlength, Nat.card_Icc, Nat.add_sub_cancel]
    have hmem : l ∈ ((ancestors level n).map level).toFinset := by
      rw [hall]
      exact Finset.mem_Icc.mpr ⟨hl, hlt.le⟩
    obtain ⟨p, hp, rfl⟩ := List.mem_map.mp (List.mem_toFinset.mp hmem)
    obtain ⟨hle, hopen⟩ := mem_ancestors.mp hp
    refine ⟨p, lt_of_le_of_ne hle ?_, rfl, hopen⟩
    rintro rfl
    exact hlt.false
  · intro habove
    refine le_antisymm (ancestors_length_le hpositive) ?_
    have hall : Finset.Icc 1 (level n) ⊆ ((ancestors level n).map level).toFinset := by
      intro l hl
      obtain ⟨hl, hle⟩ := Finset.mem_Icc.mp hl
      refine List.mem_toFinset.mpr (List.mem_map.mpr ?_)
      obtain hlt | rfl := Nat.lt_or_eq_of_le hle
      · obtain ⟨p, hp, rfl, hopen⟩ := habove l hl hlt
        exact ⟨p, mem_ancestors.mpr ⟨hp.le, hopen⟩, rfl⟩
      · exact ⟨n, List.mem_of_getLast? (getLast?_ancestors level n), rfl⟩
    have hcard := Finset.card_le_card hall
    rwa [ancestors_length_eq hpositive, Nat.card_Icc, Nat.add_sub_cancel] at hcard

/-- Below the place before it, a place keeps what is open there. -/
theorem openPlaces_deeper (hpositive : ∀ p ≤ i + 1, 0 < level p) (hopen : openPlaces level i = ancestors level i)
    (hdeeper : level i < level (i + 1)) : openPlaces level (i + 1) = ancestors level (i + 1) := by
  have hlength : (ancestors level i).length ≤ level i := ancestors_length_le fun p hp => hpositive p (by omega)
  have hparent : Parent level i (i + 1) := ⟨Nat.lt_succ_self i, hdeeper, fun j hj hji => by omega⟩
  rw [openPlaces, hopen, hparent.ancestors_eq, List.take_of_length_le (by omega)]

/-- A place that is not deeper than the one before it keeps the places above it, or more. -/
theorem openPlaces_higher (hpositive : ∀ p ≤ i + 1, 0 < level p) (hopen : openPlaces level i = ancestors level i)
    (hhigher : level (i + 1) ≤ level i) :
    ((ancestors level (i + 1)).length = level (i + 1) → openPlaces level (i + 1) = ancestors level (i + 1)) ∧
      ((openPlaces level (i + 1)).length ≤ (ancestors level (i + 1)).length →
        (ancestors level (i + 1)).length = level (i + 1)) := by
  have hbound := ancestors_length_le hpositive
  have hkept := List.takeWhile_prefix (fun p => decide (level p < level (i + 1))) (l := ancestors level i)
  -- The place before it is closed.
  have hclosed : ((ancestors level i).takeWhile fun p => level p < level (i + 1)).length <
      (ancestors level i).length := by
    refine lt_of_le_of_ne hkept.length_le fun hsame => ?_
    have hmem : i ∈ (ancestors level i).takeWhile fun p => level p < level (i + 1) := by
      rw [hkept.eq_of_length hsame]
      exact List.mem_of_getLast? (getLast?_ancestors level i)
    have hlt := ((mem_takeWhile_level (ancestors_sorted level i).1).mp hmem).2
    omega
  rw [ancestors, List.length_append, List.length_singleton] at hbound ⊢
  rw [openPlaces, hopen, List.length_append, List.length_singleton, List.length_take]
  constructor
  · intro hfull
    rw [List.prefix_iff_eq_take.mp hkept]
    congr 2
    omega
  · omega

/-- Where every place that is not deeper than the one before it has all levels above it, the kept places are those above. -/
theorem openPlaces_eq (hpositive : ∀ p < n, 0 < level p)
    (hfull : ∀ j, j + 1 < n → level (j + 1) ≤ level j → (ancestors level (j + 1)).length = level (j + 1)) (hi : i < n) :
    openPlaces level i = ancestors level i := by
  induction i with
  | zero => rfl
  | succ i ih =>
    have hpositive' : ∀ p ≤ i + 1, 0 < level p := fun p hp => hpositive p (by omega)
    obtain hdeeper | hhigher := Nat.lt_or_ge (level i) (level (i + 1))
    · exact openPlaces_deeper hpositive' (ih (by omega)) hdeeper
    · exact (openPlaces_higher hpositive' (ih (by omega)) hhigher).1 (hfull i hi hhigher)

theorem openPlaces_full (hpositive : ∀ p < n, 0 < level p)
    (hshort : ∀ j < n, (openPlaces level j).length ≤ (ancestors level j).length) (hi : i < n) :
    openPlaces level i = ancestors level i := by
  induction i with
  | zero => rfl
  | succ i ih =>
    have hpositive' : ∀ p ≤ i + 1, 0 < level p := fun p hp => hpositive p (by omega)
    obtain hdeeper | hhigher := Nat.lt_or_ge (level i) (level (i + 1))
    · exact openPlaces_deeper hpositive' (ih (by omega)) hdeeper
    · have hstep := openPlaces_higher hpositive' (ih (by omega)) hhigher
      exact hstep.1 (hstep.2 (hshort (i + 1) hi))

end Depth

/-! ## The path of each section -/

def levelAt (found : List HeadingMatch) (i : ℕ) : ℕ := found[i]?.elim 0 (·.level)

def headingAt (found : List HeadingMatch) (i : ℕ) : List Char := found[i]?.elim [] (·.heading)

/-- Headings in the order of the source with growing levels up to the one at `i`, each the nearest before the next one with
a smaller level. -/
def AncestorPath (found : List HeadingMatch) (i : ℕ) (path : List (List Char)) : Prop :=
  ∃ places : List ℕ, places.map (headingAt found) = path ∧ places.getLast? = some i ∧
    places.Pairwise (fun p q => p < q ∧ levelAt found p < levelAt found q) ∧ places.IsChain (Parent (levelAt found))

/-- The last sections are those of the headings; a section before them has the title for its heading. -/
structure HeadingPaths (title : List Char) (found : List HeadingMatch) (sections : List Section) : Prop where
  titled : ∀ sec ∈ sections.take (sections.length - found.length),
    sec.heading = some title ∧ sec.headingPath = fallbackHeadingPath title
  headed : (sections.drop (sections.length - found.length)).map (·.heading) = found.map (some ·.heading)
  path : ∀ i sec, (sections.drop (sections.length - found.length))[i]? = some sec → AncestorPath found i sec.headingPath

/-- A heading that is not deeper than the one before it stands under a heading of every smaller level. -/
def Nested (found : List HeadingMatch) : Prop :=
  ∀ i, i + 1 < found.length → levelAt found (i + 1) ≤ levelAt found i →
    ∀ l, 0 < l → l < levelAt found (i + 1) →
      ∃ p < i + 1, levelAt found p = l ∧ ∀ j, p < j → j ≤ i + 1 → l < levelAt found j

/-- The hierarchy with which the loop comes to the heading at a place. -/
def hierarchyBefore (found : List HeadingMatch) : ℕ → List (List Char)
  | 0 => []
  | n + 1 => (openPlaces (levelAt found) n).map (headingAt found)

theorem hierarchyBefore_succ {found : List HeadingMatch} {k : ℕ} {own : HeadingMatch} (hown : found[k]? = some own) :
    (hierarchyBefore found k).take (min (own.level - 1) (hierarchyBefore found k).length) ++ [own.heading] =
      hierarchyBefore found (k + 1) := by
  have hlevel : levelAt found k = own.level := by rw [levelAt, hown]; rfl
  have hheading : headingAt found k = own.heading := by rw [headingAt, hown]; rfl
  rw [List.take_eq_take_min.symm]
  cases k with
  | zero => simp [hierarchyBefore, openPlaces, hheading]
  | succ k => simp [hierarchyBefore, openPlaces, hlevel, hheading, List.map_take]

/-- The section of each heading has its text and the open places for its path. -/
theorem headingSections_paths (normalized : IndexedText) {found : List HeadingMatch} (rest earlier : List HeadingMatch)
    (hfound : earlier ++ rest = found) :
    (headingSections normalized (hierarchyBefore found earlier.length) rest).map (fun sec => (sec.heading, sec.headingPath)) =
      (List.range' earlier.length rest.length).map fun i => (some (headingAt found i), hierarchyBefore found (i + 1)) := by
  induction rest generalizing earlier with
  | nil => rfl
  | cons own rest ih =>
    have hown : found[earlier.length]? = some own := by
      rw [← hfound, List.getElem?_append_right le_rfl, Nat.sub_self]
      rfl
    have hheading : headingAt found earlier.length = own.heading := by rw [headingAt, hown]; rfl
    have hrest := ih (earlier ++ [own]) (by rw [List.append_assoc]; exact hfound)
    rw [List.length_append, List.length_singleton] at hrest
    unfold headingSections
    rw [hierarchyBefore_succ hown, List.length_cons, List.range'_succ, List.map_cons, List.map_cons, hheading, hrest]

theorem length_headingSections (normalized : IndexedText) (hierarchy : List (List Char)) (found : List HeadingMatch) :
    (headingSections normalized hierarchy found).length = found.length := by
  induction found generalizing hierarchy with
  | nil => rfl
  | cons own rest ih =>
    unfold headingSections
    rw [List.length_cons, List.length_cons, ih]

theorem headingSections_headings (normalized : IndexedText) (hierarchy : List (List Char)) (found : List HeadingMatch) :
    (headingSections normalized hierarchy found).map (·.heading) = found.map (some ·.heading) := by
  induction found generalizing hierarchy with
  | nil => rfl
  | cons own rest ih =>
    unfold headingSections
    rw [List.map_cons, List.map_cons, ih]

theorem headingSections_path (normalized : IndexedText) (found : List HeadingMatch) {i : ℕ} {sec : Section}
    (hsec : (headingSections normalized [] found)[i]? = some sec) :
    i < found.length ∧ sec.headingPath = (openPlaces (levelAt found) i).map (headingAt found) := by
  have hi : i < found.length := by
    rw [← length_headingSections normalized [] found]
    exact (List.getElem?_eq_some_iff.mp hsec).1
  have hpaths := congrArg (·[i]?) (headingSections_paths normalized found [] rfl)
  have hrange : (List.range' 0 found.length)[i]? = some i := by
    rw [List.getElem?_range' hi, Nat.zero_add, Nat.one_mul]
  rw [List.length_nil, List.getElem?_map, List.getElem?_map, hrange] at hpaths
  rw [List.nil_append, show hierarchyBefore found 0 = [] from rfl, hsec] at hpaths
  exact ⟨hi, congrArg Prod.snd (Option.some.inj hpaths)⟩

/-- Every path is a chain of ancestors just where the headings are nested without gaps. -/
theorem ancestorPath_iff {found : List HeadingMatch} (hpositive : ∀ p < found.length, 0 < levelAt found p) :
    (∀ i < found.length, AncestorPath found i ((openPlaces (levelAt found) i).map (headingAt found))) ↔ Nested found := by
  constructor
  · intro hpaths
    have hshort : ∀ i < found.length,
        (openPlaces (levelAt found) i).length ≤ (ancestors (levelAt found) i).length := by
      intro i hi
      obtain ⟨places, hmap, hlast, -, hchain⟩ := hpaths i hi
      have hsame := congrArg List.length hmap
      rw [List.length_map, List.length_map] at hsame
      rw [← hsame]
      exact (chain_suffix hchain hlast).length_le
    intro i hi hhigher
    have hpositive' : ∀ p ≤ i + 1, 0 < levelAt found p := fun p hp => hpositive p (by omega)
    have hopen := openPlaces_full hpositive hshort (Nat.lt_of_succ_lt hi)
    exact (ancestors_full_iff hpositive').mp ((openPlaces_higher hpositive' hopen hhigher).2 (hshort (i + 1) hi))
  · intro hnested i hi
    have hfull : ∀ j, j + 1 < found.length → levelAt found (j + 1) ≤ levelAt found j →
        (ancestors (levelAt found) (j + 1)).length = levelAt found (j + 1) := fun j hj hhigher =>
      (ancestors_full_iff fun p hp => hpositive p (by omega)).mpr (hnested j hj hhigher)
    rw [openPlaces_eq hpositive hfull hi]
    exact ⟨_, rfl, getLast?_ancestors _ i, (ancestors_sorted _ i).1, ancestors_chain _ i⟩

theorem sectionsForText_eq {normalized : IndexedText} (title : List Char) {pattern : HeadingPattern}
    {found : List HeadingMatch} (hfound : headingMatches normalized (pattern.capturesIter normalized.text) = .ok found) :
    ∃ leading, sectionsForText normalized title pattern = .ok (leading ++ headingSections normalized [] found) ∧
      ∀ sec ∈ leading, sec.heading = some title ∧ sec.headingPath = fallbackHeadingPath title := by
  unfold sectionsForText
  rw [hfound]
  cases found with
  | nil => exact ⟨[_], rfl, fun sec hsec => by rw [List.mem_singleton.mp hsec]; exact ⟨rfl, rfl⟩⟩
  | cons first rest =>
    refine ⟨_, rfl, fun sec hsec => ?_⟩
    split at hsec
    · rw [List.mem_singleton.mp hsec]
      exact ⟨rfl, rfl⟩
    · cases hsec

theorem headingMatches_level {normalized : IndexedText} {captures : List HeadingCapture} {found : List HeadingMatch}
    (hmarkers : ∀ capture ∈ captures, capture.markers ≠ []) (hfound : headingMatches normalized captures = .ok found) :
    ∀ own ∈ found, 0 < own.level := by
  induction captures generalizing found with
  | nil =>
    cases hfound
    exact fun own hown => absurd hown List.not_mem_nil
  | cons capture rest ih =>
    unfold headingMatches at hfound
    split at hfound
    · cases hfound
    · split at hfound
      · cases hfound
      · rename_i found' hrest
        cases hfound
        intro own hown
        obtain rfl | hown := List.mem_cons.mp hown
        · exact List.length_pos_of_ne_nil (hmarkers capture List.mem_cons_self)
        · exact ih (fun c hc => hmarkers c (List.mem_cons_of_mem _ hc)) hrest own hown

/-- The sections of a text have the chains of the headings above for their paths just where no heading skips a level when it
closes others. -/
theorem headingPaths_iff (text title : List Char) (pattern : HeadingPattern)
    (hmarkers : ∀ capture ∈ pattern.capturesIter text, capture.markers ≠ []) :
    ∃ found sections, headingMatches (IndexedText.new text) (pattern.capturesIter text) = .ok found ∧
      sectionsForText (IndexedText.new text) title pattern = .ok sections ∧
        (HeadingPaths title found sections ↔ Nested found) := by
  obtain ⟨found, hfound, -, -⟩ := headingMatches_ascending text (pattern.capturesIter text)
    (pattern.increasing text) (pattern.boundaries text)
  obtain ⟨leading, hsections, htitled⟩ :=
    sectionsForText_eq title hfound
  refine ⟨found, _, hfound, hsections, ?_⟩
  have hlength : (leading ++ headingSections (IndexedText.new text) [] found).length - found.length = leading.length := by
    rw [List.length_append, length_headingSections, Nat.add_sub_cancel]
  have hpositive : ∀ p < found.length, 0 < levelAt found p := by
    intro p hp
    rw [levelAt, List.getElem?_eq_getElem hp]
    exact headingMatches_level hmarkers hfound _ (List.getElem_mem hp)
  rw [← ancestorPath_iff hpositive]
  constructor
  · rintro ⟨-, -, hpaths⟩ i hi
    rw [hlength, List.drop_left] at hpaths
    have hi' : i < (headingSections (IndexedText.new text) [] found).length := by rwa [length_headingSections]
    have hsec := List.getElem?_eq_getElem hi'
    rw [← (headingSections_path _ found hsec).2]
    exact hpaths i _ hsec
  · intro hpaths
    refine ⟨?_, ?_, fun i sec hsec => ?_⟩
    · rw [hlength, List.take_left]
      exact htitled
    · rw [hlength, List.drop_left]
      exact headingSections_headings _ [] found
    · rw [hlength, List.drop_left] at hsec
      obtain ⟨hi, hpath⟩ := headingSections_path _ found hsec
      rw [hpath]
      exact hpaths i hi

/-! ## Headings of one level -/

def siblingText : List Char := "## A\n## B".toList

def siblingPattern : HeadingPattern where
  capturesIter text := if text = siblingText then [⟨0, ['#', '#'], ['A']⟩, ⟨5, ['#', '#'], ['B']⟩] else []
  increasing text := by
    split
    · decide
    · exact List.Pairwise.nil
  boundaries text found hfound := by
    split at hfound
    · rename_i htext
      subst htext
      obtain rfl | hfound := List.mem_cons.mp hfound
      · exact ⟨0, by decide, rfl⟩
      · rw [List.mem_singleton.mp hfound]
        exact ⟨5, by decide, rfl⟩
    · cases hfound

def siblingMatches : List HeadingMatch := [⟨0, 2, ['A']⟩, ⟨5, 2, ['B']⟩]

/-- The second heading's path goes through the first one, which has the same level. -/
theorem siblings_stacked : ∃ sections, sectionsForText (IndexedText.new siblingText) [] siblingPattern = .ok sections ∧
    ¬ HeadingPaths [] siblingMatches sections := by
  refine ⟨_, rfl, fun hpaths => ?_⟩
  obtain ⟨places, hmap, hlast, hsorted, -⟩ := hpaths.path 1 _ rfl
  have hlength : places.length = 2 := by
    rw [← List.length_map (headingAt siblingMatches), hmap]
    rfl
  obtain ⟨p, q, rfl⟩ := List.length_eq_two.mp hlength
  have hq : q = 1 := by simpa using hlast
  have hpq := List.rel_of_pairwise_cons hsorted List.mem_cons_self
  have hp : p = 0 := by omega
  subst hp hq
  exact absurd hpq.2 (by decide)

theorem headingPaths_siblings : ∃ found sections,
    headingMatches (IndexedText.new siblingText) (siblingPattern.capturesIter siblingText) = .ok found ∧
      sectionsForText (IndexedText.new siblingText) [] siblingPattern = .ok sections ∧
        (HeadingPaths [] found sections ↔ Nested found) :=
  headingPaths_iff siblingText [] siblingPattern (by decide)

end Alexandria.Chunking
