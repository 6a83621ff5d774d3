import Alexandria.Vault.Renames

/-! # When applying moves keeps every note

Before the first rename the requests are sorted into moves and skipped requests, and a move is known to have a note
at its source and nothing at its destination. What the renames then do depends on the moves among themselves and on
the place of the report: `Tidy` is the condition under which every note is kept and every request is accounted for.
-/

namespace Alexandria.Vault
set_option autoImplicit false

open FileTree

/-! ## Paths of the report -/

theorem splitOn_append (sep : Char) (l : List Char) :
    ∃ front last, ∀ ext, sep ∉ ext → (l ++ ext).splitOn sep = front ++ [last ++ ext] := by
  induction l with
  | nil => exact ⟨[], [], fun ext hext => List.splitOn_eq_singleton hext⟩
  | cons c l ih =>
    obtain ⟨front, last, hsplit⟩ := ih
    by_cases hc : c = sep
    · refine ⟨[] :: front, last, fun ext hext => ?_⟩
      rw [List.cons_append, List.splitOn_cons_eq_if_modifyHead, hsplit ext hext, if_pos (beq_iff_eq.mpr hc)]
      rfl
    · cases front with
      | nil =>
        refine ⟨[], c :: last, fun ext hext => ?_⟩
        rw [List.cons_append, List.splitOn_cons_eq_if_modifyHead, hsplit ext hext, if_neg (by simpa using hc)]
        rfl
      | cons first front =>
        refine ⟨(c :: first) :: front, last, fun ext hext => ?_⟩
        rw [List.cons_append, List.splitOn_cons_eq_if_modifyHead, hsplit ext hext, if_neg (by simpa using hc)]
        rfl

/-- A suffix goes to the last component. -/
theorem pathParts_append (stem : String) :
    ∃ front last, ∀ ext : String, '/' ∉ ext.toList → 1 < ext.toList.length →
      pathParts (stem ++ ext) = front ++ [String.ofList (last ++ ext.toList)] := by
  obtain ⟨front, last, hsplit⟩ := splitOn_append '/' stem.toList
  refine ⟨(front.map String.ofList).filter fun part => part ≠ "" ∧ part ≠ ".", last, fun ext hext hlen => ?_⟩
  have hlong : ∀ s : String, s.toList.length ≤ 1 → String.ofList (last ++ ext.toList) ≠ s := by
    intro s hs heq
    have hchars := congrArg (fun t => t.toList.length) heq
    simp only [String.toList_ofList, List.length_append] at hchars
    omega
  have hkept : String.ofList (last ++ ext.toList) ≠ "" ∧ String.ofList (last ++ ext.toList) ≠ "." :=
    ⟨hlong "" (by decide), hlong "." (by decide)⟩
  unfold pathParts
  rw [String.toList_append, hsplit ext.toList hext, List.map_append, List.filter_append]
  congr 1
  simpa using hkept

theorem resolveNotePath_ok {path : String} {p : NotePath} (h : resolveNotePath path = .ok p) : p = pathParts path := by
  unfold resolveNotePath safeRelativePath at h
  split at h
  · simp at h
  · rename_i relative hrelative
    split at hrelative
    · simp at hrelative
    · cases hrelative
      split at h
      · simp at h
      · cases h
        rfl

section Service
variable {β : Type} {service : VaultMoveService β} {vault : Tree String β}

/-- The two report files stand side by side. -/
theorem vaultMoveReportPaths_ok {request : VaultMoveApplyRequest} {paths : ReportPaths}
    (h : vaultMoveReportPaths service request = .ok paths) :
    paths.json.dropLast = paths.markdown.dropLast ∧ paths.json ≠ paths.markdown := by
  unfold vaultMoveReportPaths at h
  simp only at h
  split at h
  · simp at h
  · simp at h
  · rename_i markdown json hmarkdown hjson
    cases h
    simp only
    rw [resolveNotePath_ok hmarkdown, resolveNotePath_ok hjson]
    generalize removeSuffix (removeSuffix _ ".md") ".json" = stem
    obtain ⟨front, last, hparts⟩ := pathParts_append stem
    rw [hparts ".md" (by decide) (by decide), hparts ".json" (by decide) (by decide)]
    refine ⟨by rw [List.dropLast_concat, List.dropLast_concat], ?_⟩
    intro heq
    have hlast := congrArg (fun t => t.toList.length) (List.singleton_inj.mp (List.append_cancel_left heq))
    simp only [String.toList_ofList, List.length_append] at hlast
    have hmd : (".md" : String).toList.length = 3 := by decide
    have hjs : (".json" : String).toList.length = 5 := by decide
    omega

/-! ## Requests -/

theorem VaultMove.ends_eq_some {move : VaultMove} {e : Ends} : move.ends = some e ↔
    resolveNotePath move.sourcePath = .ok e.1 ∧ resolveNotePath move.destinationPath = .ok e.2 := by
  unfold VaultMove.ends
  cases resolveNotePath move.sourcePath with
  | error failure => simp
  | ok source =>
    cases resolveNotePath move.destinationPath with
    | error failure => simp
    | ok destination => simp [Prod.ext_iff]

/-- A request as it is spelled. -/
def VaultMove.spelling (move : VaultMove) : String × String := (move.sourcePath, move.destinationPath)

def VaultMoveSkip.spelling (skip : VaultMoveSkip) : String × String := (skip.sourcePath, skip.destinationPath)

theorem resolvedIssue_none {move : VaultMove} {source destination : NotePath}
    (h : resolvedIssue service vault move source destination = none) : Safe vault (source, destination) := by
  unfold resolvedIssue at h
  split_ifs at h with _ _ _ _ hfile hfree
  refine ⟨?_, ?_⟩
  · cases hc : vault.content source with
    | none => simp [hc] at hfile
    | some c => exact ⟨c, rfl⟩
  · rw [← Tree.exist_eq_false]
    simpa using hfree

theorem resolvedIssue_some {move : VaultMove} {source destination : NotePath} {skip : VaultMoveSkip}
    (h : resolvedIssue service vault move source destination = some skip) : skip.spelling = move.spelling := by
  unfold resolvedIssue at h
  split_ifs at h
  all_goals
    cases h
    rfl

theorem moveSafetyIssue_none {move : VaultMove} (h : moveSafetyIssue service vault move = .ok none) :
    ∃ e, move.ends = some e ∧ Safe vault e := by
  unfold moveSafetyIssue at h
  split at h
  · simp at h
  · simp at h
  · rename_i source destination hsource hdestination
    have hnone : resolvedIssue service vault move source destination = none := by simpa using h
    exact ⟨(source, destination), VaultMove.ends_eq_some.mpr ⟨hsource, hdestination⟩, resolvedIssue_none hnone⟩

theorem moveSafetyIssue_some {move : VaultMove} {skip : VaultMoveSkip}
    (h : moveSafetyIssue service vault move = .ok (some skip)) : skip.spelling = move.spelling := by
  unfold moveSafetyIssue at h
  split at h
  · simp at h
  · simp at h
  · rename_i source destination hsource hdestination
    exact resolvedIssue_some (by simpa using h)

/-- Every request is in one of the two lists. -/
def Accounts (requests moves : List VaultMove) (skipped : List VaultMoveSkip) : Prop :=
  (moves.map VaultMove.spelling ++ skipped.map VaultMoveSkip.spelling).Perm (requests.map VaultMove.spelling)

theorem Accounts.move {requests moves : List VaultMove} {skipped : List VaultMoveSkip} (move : VaultMove)
    (h : Accounts requests moves skipped) : Accounts (move :: requests) (move :: moves) skipped :=
  List.Perm.cons _ h

theorem Accounts.skip {requests moves : List VaultMove} {skipped : List VaultMoveSkip} {move : VaultMove}
    {skip : VaultMoveSkip} (hskip : skip.spelling = move.spelling) (h : Accounts requests moves skipped) :
    Accounts (move :: requests) moves (skip :: skipped) := by
  unfold Accounts
  rw [List.map_cons, List.map_cons, hskip]
  exact List.perm_middle.trans (List.Perm.cons _ h)

theorem planMoves_accounts {requests planned : List VaultMove} {skipped : List VaultMoveSkip}
    (h : planMoves service vault requests = .ok (planned, skipped)) : Accounts requests planned skipped := by
  induction requests generalizing planned skipped with
  | nil =>
    cases h
    exact .refl _
  | cons move requests ih =>
    rw [planMoves] at h
    split at h
    · simp at h
    · rename_i issue hissue
      split at h
      · simp at h
      · rename_i planned' skipped' hrest
        have hlater := ih hrest
        split at h
        · cases h
          exact hlater.skip (moveSafetyIssue_some hissue)
        · cases h
          exact hlater.move move

/-- What one round of the second check does. -/
theorem applicableFrom_cons {seenSources seenDestinations : List String} {move : VaultMove} {moves : List VaultMove}
    {result : List VaultMove × List VaultMoveSkip}
    (h : applicableFrom service vault seenSources seenDestinations (move :: moves) = .ok result) :
    ∃ seenSources' seenDestinations' rest,
      applicableFrom service vault seenSources' seenDestinations' moves = .ok rest ∧
      ((∃ skip : VaultMoveSkip, skip.spelling = move.spelling ∧ result = (rest.1, skip :: rest.2)) ∨
        (moveSafetyIssue service vault move = .ok none ∧ result = (move :: rest.1, rest.2))) := by
  have hmap : ∀ {γ : Type} {x : Except VaultError γ} {f : γ → List VaultMove × List VaultMoveSkip},
      x.map f = .ok result → ∃ rest, x = .ok rest ∧ result = f rest := by
    intro γ x f hx
    cases x with
    | error e => cases hx
    | ok rest =>
      cases hx
      exact ⟨rest, rfl, rfl⟩
  rw [applicableFrom] at h
  split at h
  · obtain ⟨rest, hrest, rfl⟩ := hmap h
    exact ⟨_, _, rest, hrest, .inl ⟨moveSkip move "duplicate_source", rfl, rfl⟩⟩
  · split at h
    · obtain ⟨rest, hrest, rfl⟩ := hmap h
      exact ⟨_, _, rest, hrest, .inl ⟨moveSkip move "duplicate_destination", rfl, rfl⟩⟩
    · split at h
      · simp at h
      · rename_i skip hskip
        obtain ⟨rest, hrest, rfl⟩ := hmap h
        exact ⟨_, _, rest, hrest, .inl ⟨skip, moveSafetyIssue_some hskip, rfl⟩⟩
      · rename_i hnone
        obtain ⟨rest, hrest, rfl⟩ := hmap h
        exact ⟨_, _, rest, hrest, .inr ⟨hnone, rfl⟩⟩

theorem applicableFrom_accounts {seenSources seenDestinations : List String} {requests applicable : List VaultMove}
    {skipped : List VaultMoveSkip}
    (h : applicableFrom service vault seenSources seenDestinations requests = .ok (applicable, skipped)) :
    Accounts requests applicable skipped := by
  induction requests generalizing seenSources seenDestinations applicable skipped with
  | nil =>
    cases h
    exact .refl _
  | cons move requests ih =>
    obtain ⟨_, _, rest, hrest, ⟨skip, hskip, hresult⟩ | ⟨-, hresult⟩⟩ := applicableFrom_cons h
    · cases hresult
      exact (ih hrest).skip hskip
    · cases hresult
      exact (ih hrest).move move

theorem applicableFrom_safe {seenSources seenDestinations : List String} {requests applicable : List VaultMove}
    {skipped : List VaultMoveSkip}
    (h : applicableFrom service vault seenSources seenDestinations requests = .ok (applicable, skipped)) :
    ∀ move ∈ applicable, ∃ e, move.ends = some e ∧ Safe vault e := by
  induction requests generalizing seenSources seenDestinations applicable skipped with
  | nil =>
    cases h
    intro move hmove
    simp at hmove
  | cons move requests ih =>
    obtain ⟨_, _, rest, hrest, ⟨skip, -, hresult⟩ | ⟨hnone, hresult⟩⟩ := applicableFrom_cons h
    · cases hresult
      exact ih hrest
    · cases hresult
      intro m hm
      obtain rfl | hm := List.mem_cons.mp hm
      · exact moveSafetyIssue_none hnone
      · exact ih hrest m hm

/-- What is known when the first rename is made. -/
theorem prepare_ok {request : VaultMoveApplyRequest} {paths : ReportPaths} {applicable : List VaultMove}
    {skipped : List VaultMoveSkip} (h : prepare service vault request = .ok (paths, applicable, skipped)) :
    vaultMoveReportPaths service request = .ok paths ∧ reportAvailable vault paths = true ∧
      Accounts request.moves applicable skipped ∧ ∀ move ∈ applicable, ∃ e, move.ends = some e ∧ Safe vault e := by
  unfold prepare at h
  split at h
  · simp at h
  · rename_i planned hplan
    split at h
    · simp at h
    · rename_i paths' hpaths
      split at h
      · rename_i havailable
        split at h
        · simp at h
        · rename_i applicable' skipped' happlicable
          cases h
          have hsecond := applicableFrom_accounts happlicable
          unfold plan at hplan
          split at hplan
          · simp at hplan
          · rename_i moves skipped₀ hmoves
            cases hplan
            have hfirst := planMoves_accounts hmoves
            refine ⟨hpaths, havailable, ?_, applicableFrom_safe happlicable⟩
            -- the moves of the plan are the requests of the second check
            unfold Accounts at hfirst hsecond ⊢
            rw [List.map_append]
            have hswap : (applicable.map VaultMove.spelling ++
                (skipped₀.map VaultMoveSkip.spelling ++ skipped'.map VaultMoveSkip.spelling)).Perm
                (applicable.map VaultMove.spelling ++ skipped'.map VaultMoveSkip.spelling ++
                  skipped₀.map VaultMoveSkip.spelling) := by
              rw [List.append_assoc]
              exact List.perm_append_comm.append_left _
            exact hswap.trans ((hsecond.append_right _).trans hfirst)
      · simp at h

theorem renameNotes_eq {moves : List VaultMove} (tree : Tree String β)
    (hmoves : ∀ move ∈ moves, ∃ e, move.ends = some e ∧ Safe vault e) :
    renameNotes tree moves = renameEnds tree (moves.filterMap VaultMove.ends) := by
  induction moves generalizing tree with
  | nil => rfl
  | cons move moves ih =>
    obtain ⟨e, he, -⟩ := hmoves move List.mem_cons_self
    obtain ⟨hsource, hdestination⟩ := VaultMove.ends_eq_some.mp he
    have hround : renameNote tree move = renameAt tree e.1 e.2 := by
      unfold renameNote
      rw [hsource, hdestination]
    rw [renameNotes, hround, List.filterMap_cons, he]
    simp only
    rw [renameEnds]
    cases renameAt tree e.1 e.2 with
    | error failure => rfl
    | ok renamed => exact ih renamed fun m hm => hmoves m (List.mem_cons_of_mem move hm)

theorem safe_of_mem_ends {moves : List VaultMove} (hmoves : ∀ move ∈ moves, ∃ e, move.ends = some e ∧ Safe vault e) :
    ∀ e ∈ moves.filterMap VaultMove.ends, Safe vault e := by
  intro e he
  obtain ⟨move, hmove, hends⟩ := List.mem_filterMap.mp he
  obtain ⟨e', hends', hsafe⟩ := hmoves move hmove
  rw [hends] at hends'
  cases hends'
  exact hsafe

/-! ## Writing the report -/

/-- The vault without the report that was just written. -/
def withoutReport (written : Tree String β) (paths : ReportPaths) : Tree String β :=
  (written.remove paths.json).remove paths.markdown

/-- The report fits beside the moved notes: no destination is at, below or above its files, and every note above them
has been moved. -/
def ReportFits (vault : Tree String β) (paths : ReportPaths) (ends : List Ends) : Prop :=
  (∀ e ∈ ends, ¬ paths.markdown <+: e.2 ∧ ¬ paths.json <+: e.2 ∧ ¬ e.2 <+: paths.markdown.dropLast) ∧
    ∀ p c, vault.content p = some c → p <+: paths.markdown.dropLast → ∃ e ∈ ends, e.1 = p

theorem reportAvailable_iff {tree : Tree String β} {paths : ReportPaths} :
    reportAvailable tree paths = true ↔ tree.entry paths.markdown = none ∧ tree.entry paths.json = none := by
  unfold reportAvailable
  rw [← Tree.exist_eq_false, ← Tree.exist_eq_false]
  simp

theorem writeVaultMoveReport_ok {renamed written : Tree String β} {paths : ReportPaths} {report : VaultMoveReport}
    (hpaths : paths.json.dropLast = paths.markdown.dropLast ∧ paths.json ≠ paths.markdown)
    (h : writeVaultMoveReport service renamed paths report = .ok written) :
    reportAvailable renamed paths = true ∧
      renamed.mkdirs paths.markdown.dropLast = .ok (withoutReport written paths) := by
  unfold writeVaultMoveReport at h
  split at h
  · rename_i havailable
    refine ⟨havailable, ?_⟩
    obtain ⟨hmarkdown, hjson⟩ := reportAvailable_iff.mp havailable
    split at h
    · simp at h
    · rename_i made hmade
      cases h
      obtain ⟨-, hentry, -⟩ := Tree.mkdirs_ok hmade
      have hfree : ∀ p : NotePath, renamed.entry p = none → p.dropLast = paths.markdown.dropLast →
          made.entry p = none := by
        intro p hp hparent
        rw [hentry, if_neg]
        · exact hp
        · rintro ⟨hpre, -⟩
          rw [← hparent] at hpre
          exact ((prefix_dropLast_iff (Tree.ne_nil_of_none hp)).mp hpre).2 rfl
      have hsecond : (made.write paths.markdown (service.encodeUtf8 (vaultMoveReportMarkdown report))).entry paths.json =
          none := by
        rw [Tree.entry_write (Tree.ne_nil_of_none hmarkdown), if_neg hpaths.2]
        exact hfree _ hjson hpaths.1
      rw [hmade]
      unfold withoutReport
      rw [Tree.remove_write hsecond, Tree.remove_write (hfree _ hmarkdown rfl)]
  · simp at h

/-- Beside notes that were moved in order, the report can be written exactly if it fits. -/
theorem writeVaultMoveReport_iff {renamed : Tree String β} {paths : ReportPaths} {report : VaultMoveReport}
    {ends : List Ends} (ht : Tracks vault ends renamed) (hends : ∀ e ∈ ends, Safe vault e)
    (havailable : reportAvailable vault paths = true) :
    (∃ written, writeVaultMoveReport service renamed paths report = .ok written) ↔ ReportFits vault paths ends := by
  obtain ⟨hmarkdown, hjson⟩ := reportAvailable_iff.mp havailable
  have hfree : reportAvailable renamed paths = true ↔
      ∀ e ∈ ends, ¬ paths.markdown <+: e.2 ∧ ¬ paths.json <+: e.2 := by
    rw [reportAvailable_iff, ht.free _ hmarkdown, ht.free _ hjson]
    exact forall₂_and.symm
  have habove : (∀ q, q <+: paths.markdown.dropLast → renamed.content q = none) ↔
      (∀ e ∈ ends, ¬ e.2 <+: paths.markdown.dropLast) ∧
        ∀ p c, vault.content p = some c → p <+: paths.markdown.dropLast → ∃ e ∈ ends, e.1 = p := by
    constructor
    · intro h
      refine ⟨?_, ?_⟩
      · intro e he hpre
        obtain ⟨⟨c, hc⟩, -⟩ := hends e he
        have hmoved := ht.moved e he
        rw [h e.2 hpre, hc] at hmoved
        simp at hmoved
      · intro p c hp hpre
        by_contra hstays
        have hsame := (ht.others p fun e he => (hends e he).destination_ne hp).2 fun e he heq => hstays ⟨e, he, heq⟩
        rw [h p hpre, hp] at hsame
        simp at hsame
    · rintro ⟨hdestinations, hsources⟩ q hq
      have hne : ∀ e ∈ ends, e.2 ≠ q := by
        rintro e he rfl
        exact hdestinations e he hq
      by_cases hmoved : ∃ e ∈ ends, e.1 = q
      · exact (ht.others q hne).1 hmoved
      · rw [(ht.others q hne).2 fun e he heq => hmoved ⟨e, he, heq⟩]
        cases hc : vault.content q with
        | none => rfl
        | some c => exact absurd (hsources q c hc hq) hmoved
  have hwrite : (∃ written, writeVaultMoveReport service renamed paths report = .ok written) ↔
      reportAvailable renamed paths = true ∧ ∀ q, q <+: paths.markdown.dropLast → renamed.content q = none := by
    unfold writeVaultMoveReport
    constructor
    · rintro ⟨written, h⟩
      split at h
      · rename_i hnow
        split at h
        · simp at h
        · rename_i made hmade
          exact ⟨hnow, (Tree.mkdirs_ok hmade).1⟩
      · simp at h
    · rintro ⟨hnow, hno⟩
      rw [if_pos hnow, Tree.mkdirs_eq hno]
      exact ⟨_, rfl⟩
  rw [hwrite, hfree, habove]
  unfold ReportFits
  constructor
  · rintro ⟨hfirst, hsecond, hthird⟩
    exact ⟨fun e he => ⟨(hfirst e he).1, (hfirst e he).2, hsecond e he⟩, hthird⟩
  · rintro ⟨hfirst, hthird⟩
    exact ⟨fun e he => ⟨(hfirst e he).1, (hfirst e he).2.1⟩, fun e he => (hfirst e he).2.2, hthird⟩

/-! ## Keeping every note -/

/-- The note of the request is at its destination, and only there. -/
def Relocated (vault notes : Tree String β) (move : VaultMove) : Prop :=
  ∃ e c, move.ends = some e ∧ vault.content e.1 = some c ∧ notes.content e.1 = none ∧ notes.content e.2 = some c

/-- What remains when a call is over: after an exception the vault as it was; otherwise, beside the report, the same
contents, each request relocated or reported as skipped, and each note at its place unless it was to be moved. -/
def KeepsNotes (vault : Tree String β) (requests : List VaultMove) : MoveOutcome β → Prop
  | .raised _ left => left.contents.Perm vault.contents ∧ ∀ p, left.content p = vault.content p
  | .returned written paths report =>
    (withoutReport written paths).contents.Perm vault.contents ∧
      Accounts requests report.moved report.skipped ∧
      (∀ move ∈ report.moved, Relocated vault (withoutReport written paths) move) ∧
      ∀ p c, vault.content p = some c → (withoutReport written paths).content p = some c ∨
        ∃ move ∈ report.moved, resolveNotePath move.sourcePath = .ok p

/-- The directory of the first destination cannot be made. -/
def FirstBlocked (vault : Tree String β) (ends : List Ends) : Prop :=
  ∃ e rest p c, ends = e :: rest ∧ vault.content p = some c ∧ p <+: e.2

/-- The requests are refused before the first rename, or the moves that pass the checks are none, are stopped at the
first one, or are orderly with a report that fits beside them. -/
def Tidy (service : VaultMoveService β) (vault : Tree String β) (request : VaultMoveApplyRequest) : Prop :=
  match prepare service vault request with
  | .error _ => True
  | .ok (paths, applicable, _) =>
    let ends := applicable.filterMap VaultMove.ends
    ends = [] ∨ FirstBlocked vault ends ∨ (Orderly vault [] ends ∧ ReportFits vault paths ends)

theorem keepsNotes_raised (requests : List VaultMove) (e : VaultError) :
    KeepsNotes vault requests (.raised e vault) := ⟨.refl _, fun _ => rfl⟩

/-- The source of a safe move is at or below no destination. -/
theorem destination_not_above {vault : VaultTree β} {d e : Ends} (hd : Safe vault.tree d) (he : Safe vault.tree e) :
    ¬ d.2 <+: e.1 := by
  intro hpre
  obtain ⟨⟨c, hc⟩, -⟩ := he
  have hexist : vault.tree.exist e.1 = true := by
    unfold Tree.exist
    rw [Tree.content_eq_some.mp hc]
    rfl
  have hdir := vault.closed e.1 d.2 hexist hpre (hd.destination_ne hc)
  rw [hd.2] at hdir
  simp at hdir

theorem firstBlocked_renameEnds {ends : List Ends} (h : FirstBlocked vault ends) (hends : ∀ e ∈ ends, Safe vault e) :
    ∃ failure, renameEnds vault ends = .error (failure, vault) := by
  obtain ⟨e, rest, p, c, rfl, hp, hpre⟩ := h
  have he := hends e List.mem_cons_self
  have hne : p ≠ e.2 := (he.destination_ne hp).symm
  have hparent := (prefix_dropLast_iff (Tree.ne_nil_of_none he.2)).mpr ⟨hpre, hne⟩
  cases hmade : vault.mkdirs e.2.dropLast with
  | ok made =>
    rw [(Tree.mkdirs_ok hmade).1 p hparent] at hp
    simp at hp
  | error failure =>
    refine ⟨.osError failure, ?_⟩
    unfold renameEnds renameAt
    rw [hmade]

/-- The first rename is made unless it is blocked, and then its source stays empty. -/
theorem first_source_empty {vault : VaultTree β} {e : Ends} {rest : List Ends}
    (hends : ∀ d ∈ e :: rest, Safe vault.tree d) (hfirst : ¬ FirstBlocked vault.tree (e :: rest)) :
    (treeLeft (renameEnds vault.tree (e :: rest))).content e.1 = none := by
  have he := hends e List.mem_cons_self
  have hclear : Clear vault.tree [] e := by
    refine ⟨fun d hd => (nomatch hd), ?_⟩
    intro p c hp hpre
    exact absurd ⟨e, rest, p, c, rfl, hp, hpre⟩ hfirst
  obtain ⟨renamed, hrename, ht⟩ := tracks_start.step (fun d hd => (nomatch hd)) he hclear
  obtain ⟨⟨c, hc⟩, -⟩ := id he
  have hgone : renamed.content e.1 = none := by
    refine (ht.others e.1 ?_).1 ⟨e, by simp, rfl⟩
    intro d hd
    rw [List.nil_append, List.mem_singleton] at hd
    rw [hd]
    exact (Ne.symm he.ne)
  rw [renameEnds, hrename]
  exact renameEnds_absent hgone fun d hd => destination_not_above (hends d (List.mem_cons_of_mem e hd)) he

/-- A batch in order, with its report beside it. -/
theorem keepsNotes_orderly {renamed written : Tree String β} {paths : ReportPaths} {report : VaultMoveReport}
    {requests : List VaultMove}
    (hpaths : paths.json.dropLast = paths.markdown.dropLast ∧ paths.json ≠ paths.markdown)
    (hmoves : ∀ move ∈ report.moved, ∃ e, move.ends = some e ∧ Safe vault e)
    (ht : Tracks vault (report.moved.filterMap VaultMove.ends) renamed)
    (haccounts : Accounts requests report.moved report.skipped)
    (hwrite : writeVaultMoveReport service renamed paths report = .ok written) :
    KeepsNotes vault requests (.returned written paths report) := by
  obtain ⟨-, hmade⟩ := writeVaultMoveReport_ok hpaths hwrite
  obtain ⟨-, hentry, hcontents⟩ := Tree.mkdirs_ok hmade
  have hcontent : ∀ p, (withoutReport written paths).content p = renamed.content p := fun p =>
    content_of_entry (e := ([], paths.markdown)) (hentry p)
  have hsafe := safe_of_mem_ends hmoves
  refine ⟨?_, haccounts, ?_, ?_⟩
  · rw [hcontents]
    exact ht.contents
  · intro move hmove
    obtain ⟨e, hends, he⟩ := hmoves move hmove
    have hmem : e ∈ report.moved.filterMap VaultMove.ends := List.mem_filterMap.mpr ⟨move, hmove, hends⟩
    obtain ⟨⟨c, hc⟩, -⟩ := id he
    refine ⟨e, c, hends, hc, ?_, ?_⟩
    · rw [hcontent]
      exact (ht.others e.1 fun d hd => (hsafe d hd).destination_ne hc).1 ⟨e, hmem, rfl⟩
    · rw [hcontent, ht.moved e hmem]
      exact hc
  · intro p c hp
    by_cases hmoved : ∃ d ∈ report.moved.filterMap VaultMove.ends, d.1 = p
    · obtain ⟨d, hd, rfl⟩ := hmoved
      obtain ⟨move, hmove, hends⟩ := List.mem_filterMap.mp hd
      exact .inr ⟨move, hmove, (VaultMove.ends_eq_some.mp hends).1⟩
    · left
      rw [hcontent, (ht.others p fun d hd => (hsafe d hd).destination_ne hp).2 fun d hd heq => hmoved ⟨d, hd, heq⟩]
      exact hp

/-- A call that raises has kept the notes only if nothing was renamed. -/
theorem raised_unmoved {vault : VaultTree β} {ends : List Ends} {requests : List VaultMove} {error : VaultError}
    (hends : ∀ e ∈ ends, Safe vault.tree e)
    (h : KeepsNotes vault.tree requests (.raised error (treeLeft (renameEnds vault.tree ends)))) :
    ends = [] ∨ FirstBlocked vault.tree ends := by
  cases ends with
  | nil => exact .inl rfl
  | cons e rest =>
    right
    by_contra hfirst
    have hempty := first_source_empty hends hfirst
    obtain ⟨⟨c, hc⟩, -⟩ := hends e List.mem_cons_self
    rw [h.2 e.1, hc] at hempty
    simp at hempty

/-- A batch whose notes are all kept was in order, and its report fits. -/
theorem orderly_of_keepsNotes {renamed written : Tree String β} {paths : ReportPaths} {report : VaultMoveReport}
    {requests : List VaultMove}
    (hpaths : paths.json.dropLast = paths.markdown.dropLast ∧ paths.json ≠ paths.markdown)
    (havailable : reportAvailable vault paths = true)
    (hmoves : ∀ move ∈ report.moved, ∃ e, move.ends = some e ∧ Safe vault e)
    (hrename : renameEnds vault (report.moved.filterMap VaultMove.ends) = .ok renamed)
    (hwrite : writeVaultMoveReport service renamed paths report = .ok written)
    (h : KeepsNotes vault requests (.returned written paths report)) :
    Orderly vault [] (report.moved.filterMap VaultMove.ends) ∧
      ReportFits vault paths (report.moved.filterMap VaultMove.ends) := by
  obtain ⟨hperm, -, hrelocated, -⟩ := h
  obtain ⟨-, hmade⟩ := writeVaultMoveReport_ok hpaths hwrite
  obtain ⟨-, hentry, hcontents⟩ := Tree.mkdirs_ok hmade
  have hsafe := safe_of_mem_ends hmoves
  have hfiles : ∀ d ∈ report.moved.filterMap VaultMove.ends, ∃ c, renamed.content d.2 = some c := by
    intro d hd
    obtain ⟨move, hmove, hends⟩ := List.mem_filterMap.mp hd
    obtain ⟨e, c, hends', -, -, hc⟩ := hrelocated move hmove
    rw [hends] at hends'
    cases hends'
    exact ⟨c, by rwa [content_of_entry (e := ([], paths.markdown)) (hentry d.2)] at hc⟩
  have hcount : renamed.contents.length = vault.contents.length := by
    rw [← hcontents]
    exact hperm.length_eq
  have horder := orderly_of_renameEnds tracks_start (fun d hd => (nomatch hd)) hsafe hrename hfiles hcount
  refine ⟨horder, ?_⟩
  obtain ⟨renamed', hrename', ht⟩ := renameEnds_orderly tracks_start (fun d hd => (nomatch hd)) hsafe horder
  rw [hrename] at hrename'
  cases hrename'
  exact (writeVaultMoveReport_iff ht hsafe havailable).mp ⟨written, hwrite⟩

end Service

/-! ## Two spellings of one destination -/

/-- The contents of the notes when a call is over. -/
def contentsLeft {β : Type} : MoveOutcome β → List β
  | .raised _ left => left.contents
  | .returned written paths _ => (withoutReport written paths).contents

theorem KeepsNotes.contents_length {β : Type} {vault : Tree String β} {requests : List VaultMove}
    {outcome : MoveOutcome β} (h : KeepsNotes vault requests outcome) :
    (contentsLeft outcome).length = vault.contents.length := by
  cases outcome with
  | raised error left => exact h.1.length_eq
  | returned written paths report => exact h.1.length_eq

def plainService : VaultMoveService String where
  vaultName := "vault"
  alexandriaRoot := "Alexandria"
  conversationId := "1"
  encodeUtf8 := id
  dumpsPrettyJson := fun report => report.status
  reindexErrors := fun _ => false
  searchHits := fun _ _ => 0

def twoNotes : VaultTree String where
  tree := ⟨[⟨["a.md"], .file "first"⟩, ⟨["b.md"], .file "second"⟩].toAList⟩
  closed := Tree.closed_of_flat (by decide)

def respelled : VaultMoveApplyRequest where
  moves := [⟨"a.md", "x.md", "tidy"⟩, ⟨"b.md", "./x.md", "tidy"⟩]
  reportPath := none
  reindex := false
  verificationQuery := none

end Alexandria.Vault
