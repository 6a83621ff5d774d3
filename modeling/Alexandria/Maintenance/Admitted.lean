import Alexandria.Maintenance.Admission
import Mathlib.Data.List.Basic
import Mathlib.Data.List.Induction
import Mathlib.Data.Set.Defs
import Std.Data.String.ToInt

/-! # What the enqueue script keeps

One call is merged, rejected or admitted. Every live dedup key and every live counter goes back to a call of
the run, so the promises of `Admitted` follow by induction over the calls. They hold on exactly those sets of
requests that the joined key material tells apart.
-/

namespace Alexandria.Maintenance.Admission
set_option autoImplicit false

open Expiring

/-! ## Key material -/

theorem joined_injective (separator : Char) {parts others : List String} (hparts : parts ≠ []) (hothers : others ≠ [])
    (plain : ∀ part ∈ parts, separator ∉ part.toList) (plain' : ∀ part ∈ others, separator ∉ part.toList)
    (h : (String.singleton separator).intercalate parts = (String.singleton separator).intercalate others) :
    parts = others := by
  have lists := congrArg (fun text => text.toList.splitOn separator) h
  simp only [String.toList_intercalate, String.toList_singleton] at lists
  rw [List.splitOn_intercalate separator (by simpa using plain) (by simpa using hparts),
    List.splitOn_intercalate separator (by simpa using plain') (by simpa using hothers)] at lists
  exact List.map_injective_iff.mpr (fun _ _ => String.ext) lists

theorem kind_value_injective {kind kind' : MaintenanceJobKind} :
    MaintenanceJobKind.value kind = MaintenanceJobKind.value kind' → kind = kind' := by
  cases kind <;> cases kind' <;> decide

theorem separator_notMem_kind (kind : MaintenanceJobKind) : '\x1f' ∉ (MaintenanceJobKind.value kind).toList := by
  cases kind <;> decide

theorem separator_notMem_nat (n : ℕ) : '\x1f' ∉ (Nat.repr n).toList := by
  intro h
  have digits : '\x1f' ∈ Nat.toDigits 10 n := by simpa [Nat.repr] using h
  exact absurd (Nat.isDigit_of_mem_toDigits (by decide) (by decide) digits) (by decide)

theorem separator_notMem_int (n : ℤ) : '\x1f' ∉ n.repr.toList := by
  cases n with
  | ofNat n => exact separator_notMem_nat n
  | negSucc n =>
    have hn := separator_notMem_nat (n + 1)
    simpa [Int.repr] using hn

/-- Texts without the separator keep requests apart. -/
theorem dedupMaterial_injective {a b : MaintenanceJobRequest} (ha : '\x1f' ∉ a.requestedBy.toList)
    (ha' : '\x1f' ∉ a.sourceId.toList) (hb : '\x1f' ∉ b.requestedBy.toList) (hb' : '\x1f' ∉ b.sourceId.toList)
    (h : dedupMaterial a = dedupMaterial b) : a = b := by
  have flag : ∀ force : Bool, '\x1f' ∉ (if force then "1" else "0").toList := by decide
  have parts := joined_injective '\x1f' (by simp) (by simp)
    (by simp [separator_notMem_kind, separator_notMem_int, ha, ha', flag])
    (by simp [separator_notMem_kind, separator_notMem_int, hb, hb', flag]) h
  obtain ⟨kind, requestedBy, sourceId, limit, force, hne, hne'⟩ := a
  obtain ⟨kind', requestedBy', sourceId', limit', force', hne₂, hne₂'⟩ := b
  simp only [List.cons.injEq, and_true, Int.toString_eq_repr, Int.repr_inj] at parts
  obtain ⟨hkind, rfl, rfl, rfl, hforce⟩ := parts
  obtain rfl := kind_value_injective hkind
  obtain rfl : force = force' := by
    cases force <;> cases force' <;> simp at hforce ⊢
  rfl

/-- The kind has no separator, so the counter's key tells every kind and requester apart. -/
theorem rateMaterial_injective {a b : MaintenanceJobRequest} (h : rateMaterial a = rateMaterial b) :
    a.kind = b.kind ∧ a.requestedBy = b.requestedBy := by
  have lists := congrArg String.toList h
  have cut : ∀ request : MaintenanceJobRequest, (rateMaterial request).toList =
      (MaintenanceJobKind.value request.kind).toList ++ '\x1f' :: request.requestedBy.toList := by
    intro request
    simp [rateMaterial]
  rw [cut, cut] at lists
  have heads := congrArg (List.splitOn '\x1f') lists
  rw [List.splitOn_append_cons_self_of_not_mem (separator_notMem_kind _),
    List.splitOn_append_cons_self_of_not_mem (separator_notMem_kind _)] at heads
  have kinds := String.ext (List.cons.inj heads).1
  rw [kinds] at lists
  exact ⟨kind_value_injective kinds, String.ext (by simpa using lists)⟩

section Steps
variable (cfg : MaintenanceQueueConfig) (sha256 : String → String)

/-! ## One call -/

inductive Outcome (redis : Redis) (call : Call) (exchange : Exchange) : Prop
  | merged (existing : String) (hlive : redis.dedup.get call.evalAt (dedupKey sha256 call.request) = some existing)
      (hafter : exchange.after = redis) (hanswer : exchange.answer = .deduplicated existing)
  | rejected (ttl : ℤ) (hfree : redis.dedup.get call.evalAt (dedupKey sha256 call.request) = none)
      (hover : cfg.submissionLimit < (redis.counter cfg sha256 call).value)
      (hafter : exchange.after = redis.counted cfg sha256 call) (hanswer : exchange.answer = .rateLimited ttl)
  | admitted (streamId : ℕ) (hfree : redis.dedup.get call.evalAt (dedupKey sha256 call.request) = none)
      (hwithin : (redis.counter cfg sha256 call).value ≤ cfg.submissionLimit)
      (hafter : exchange.after = (redis.counted cfg sha256 call).admitted cfg sha256 call)
      (hanswer : exchange.answer = .queued call.jobId streamId)

theorem enqueue_outcome (redis : Redis) (call : Call) :
    Outcome cfg sha256 redis call (enqueue cfg sha256 redis call) := by
  cases hlive : redis.dedup.get call.evalAt (dedupKey sha256 call.request) with
  | some existing => exact .merged existing hlive (by simp [enqueue, enqueueScript, hlive]) (by simp [enqueue, enqueueScript, hlive])
  | none =>
    by_cases hover : cfg.submissionLimit < (redis.counter cfg sha256 call).value
    · refine .rejected (ttl call.evalAt (some (redis.counter cfg sha256 call))) hlive hover ?_ ?_ <;>
        simp [enqueue, enqueueScript, hlive, hover]
    · refine .admitted (redis.lastStreamId + 1) hlive (Nat.le_of_not_lt hover) ?_ ?_ <;>
        simp [enqueue, enqueueScript, hlive, hover]

variable {cfg sha256} {redis : Redis} {call : Call}

@[simp] theorem enqueue_call : (enqueue cfg sha256 redis call).call = call := rfl

/-- What a call is answered, from the store after it. -/
theorem enqueue_result : (enqueue cfg sha256 redis call).result =
    enqueueResult (enqueue cfg sha256 redis call).after call (enqueue cfg sha256 redis call).answer := rfl

/-- The counter of a call that no counter was open for. -/
theorem counter_opened (h : redis.rate.find call.evalAt (rateKey sha256 call.request) = none) :
    redis.counter cfg sha256 call = ⟨1, some (call.evalAt + cfg.window)⟩ := by
  simp [Redis.counter, h, countedEntry]

theorem counter_continued {n : ℕ} {deadline : Option ℕ} (hn : 1 ≤ n)
    (h : redis.rate.find call.evalAt (rateKey sha256 call.request) = some ⟨n, deadline⟩) :
    redis.counter cfg sha256 call = ⟨n + 1, deadline⟩ := by
  simp [Redis.counter, h, countedEntry, Nat.one_le_iff_ne_zero.mp hn]

/-! ## Runs -/

variable (cfg sha256)

/-- The store after the calls. -/
def finish (redis : Redis) (calls : List Call) : Redis :=
  calls.foldl (fun redis call => (enqueue cfg sha256 redis call).after) redis

variable {cfg sha256}

theorem finish_append (calls later : List Call) :
    finish cfg sha256 redis (calls ++ later) = finish cfg sha256 (finish cfg sha256 redis calls) later := by
  simp [finish]

theorem history_append (calls later : List Call) : history cfg sha256 redis (calls ++ later) =
    history cfg sha256 redis calls ++ history cfg sha256 (finish cfg sha256 redis calls) later := by
  induction calls generalizing redis with
  | nil => rfl
  | cons call calls ih => simp [history, ih, finish]

theorem history_concat (calls : List Call) (call : Call) : history cfg sha256 redis (calls ++ [call]) =
    history cfg sha256 redis calls ++ [enqueue cfg sha256 (finish cfg sha256 redis calls) call] :=
  history_append calls [call]

theorem map_call_history (calls : List Call) : (history cfg sha256 redis calls).map (·.call) = calls := by
  induction calls generalizing redis with
  | nil => rfl
  | cons call calls ih => simp [history, ih]

/-- A cut of the history is a cut of the calls. -/
theorem history_cut {calls : List Call} {earlier later : List Exchange} {exchange : Exchange}
    (h : history cfg sha256 redis calls = earlier ++ exchange :: later) : ∃ before call after,
      calls = before ++ call :: after ∧ earlier = history cfg sha256 redis before ∧
      exchange = enqueue cfg sha256 (finish cfg sha256 redis before) call ∧
      later = history cfg sha256 exchange.after after := by
  induction earlier generalizing redis calls with
  | nil =>
    cases calls with
    | nil => simp [history] at h
    | cons call calls =>
      simp only [history, List.nil_append, List.cons.injEq] at h
      obtain ⟨rfl, rfl⟩ := h
      exact ⟨[], call, calls, rfl, rfl, rfl, rfl⟩
  | cons first earlier ih =>
    cases calls with
    | nil => simp [history] at h
    | cons call calls =>
      simp only [history, List.cons_append, List.cons.injEq] at h
      obtain ⟨rfl, h⟩ := h
      obtain ⟨before, call', after, rfl, rfl, rfl, rfl⟩ := ih h
      exact ⟨call :: before, call', after, rfl, rfl, rfl, rfl⟩

theorem mem_history {calls : List Call} {exchange : Exchange} (h : exchange ∈ history cfg sha256 redis calls) :
    ∃ before call after, calls = before ++ call :: after ∧
      exchange = enqueue cfg sha256 (finish cfg sha256 redis before) call := by
  obtain ⟨earlier, later, hcut⟩ := List.append_of_mem h
  obtain ⟨before, call, after, hcalls, -, hexchange, -⟩ := history_cut hcut
  exact ⟨before, call, after, hcalls, hexchange⟩

theorem Schedule.take {calls later : List Call} (h : Schedule (calls ++ later)) : Schedule calls where
  reads := fun call hcall => h.reads call (List.mem_append_left _ hcall)
  ordered := (List.pairwise_append.mp h.ordered).1
  fresh := by
    have fresh := h.fresh
    rw [List.map_append] at fresh
    exact (List.nodup_append.mp fresh).1

/-- Earlier calls were evaluated no later. -/
theorem Schedule.evalAt_le {calls later : List Call} {call : Call} (h : Schedule (calls ++ call :: later)) :
    ∀ earlier ∈ calls, earlier.readAt ≤ call.evalAt ∧ earlier.evalAt ≤ call.evalAt := by
  intro earlier hearlier
  have read := (List.pairwise_append.mp h.ordered).2.2 earlier hearlier call List.mem_cons_self
  exact ⟨read, Nat.le_trans (h.reads earlier (List.mem_append_left _ hearlier)) read⟩

/-! ## Every key goes back to a call -/

variable (cfg sha256)

/-- What the store holds after the exchanges `past`. -/
structure Recorded (past : List Exchange) (redis : Redis) : Prop where
  dedup_from : ∀ key entry, redis.dedup key = some entry → ∃ first ∈ past, first.created = true ∧
    dedupKey sha256 first.call.request = key ∧ entry = ⟨first.call.jobId, some (first.call.evalAt + cfg.cooldown)⟩
  dedup_live : ∀ first ∈ past, first.created = true → ∀ now, (∀ exchange ∈ past, exchange.call.evalAt ≤ now) →
    now < first.call.evalAt + cfg.cooldown → redis.dedup (dedupKey sha256 first.call.request) =
      some ⟨first.call.jobId, some (first.call.evalAt + cfg.cooldown)⟩
  status_from : ∀ first ∈ past, first.created = true → ∃ streamId, redis.status first.call.jobId =
    some ⟨first.call.record streamId, some (first.call.evalAt + cfg.statusTtl)⟩
  rate_from : ∀ key entry, redis.rate key = some entry → 1 ≤ entry.value ∧ ∃ opening ∈ past,
    opening.opensWindow sha256 ∧ rateKey sha256 opening.call.request = key ∧
      entry.deadline = some (opening.call.evalAt + cfg.window)

variable {cfg sha256}

theorem recorded_start : Recorded cfg sha256 [] Redis.start where
  dedup_from := by simp [Redis.start, Expiring.empty]
  dedup_live := by simp
  status_from := by simp
  rate_from := by simp [Redis.start, Expiring.empty]

variable {past : List Exchange}

theorem Recorded.mono_rate (h : Recorded cfg sha256 past redis) {key : String} {entry : Entry ℕ} {exchange : Exchange}
    (hrate : redis.rate key = some entry) : 1 ≤ entry.value ∧ ∃ opening ∈ past ++ [exchange],
      opening.opensWindow sha256 ∧ rateKey sha256 opening.call.request = key ∧
        entry.deadline = some (opening.call.evalAt + cfg.window) := by
  obtain ⟨value, opening, hmem, rest⟩ := h.rate_from key entry hrate
  exact ⟨value, opening, List.mem_append_left _ hmem, rest⟩

/-- The counter a call leaves was opened by the call or by one before it. -/
theorem Recorded.counted (h : Recorded cfg sha256 past redis) {exchange : Exchange} (hcall : exchange.call = call)
    (hbefore : exchange.before = redis) (hmerged : exchange.merged = false) {key : String} {entry : Entry ℕ}
    (hrate : (redis.counted cfg sha256 call).rate key = some entry) : 1 ≤ entry.value ∧ ∃ opening ∈ past ++ [exchange],
      opening.opensWindow sha256 ∧ rateKey sha256 opening.call.request = key ∧
        entry.deadline = some (opening.call.evalAt + cfg.window) := by
  rcases Store.set_eq_some hrate with ⟨rfl, rfl⟩ | ⟨-, hrate⟩
  · cases hfind : redis.rate.find call.evalAt (rateKey sha256 call.request) with
    | none =>
      rw [counter_opened hfind]
      refine ⟨Nat.le_refl 1, exchange, by simp, ⟨hmerged, ?_⟩, by rw [hcall], by rw [hcall]⟩
      rw [hbefore, hcall]
      exact hfind
    | some entry =>
      obtain ⟨value, deadline⟩ := entry
      obtain ⟨positive, opening, hmem, opens, hkey, hdeadline⟩ := h.rate_from _ _ (Store.find_eq_some.mp hfind).1
      rw [counter_continued positive hfind]
      exact ⟨Nat.le_add_left 1 value, opening, List.mem_append_left _ hmem, opens, hkey, hdeadline⟩
  · exact h.mono_rate hrate

/-- The step lemma: what one call keeps. -/
theorem Recorded.step (h : Recorded cfg sha256 past redis) (hordered : ∀ exchange ∈ past, exchange.call.evalAt ≤ call.evalAt)
    (hfresh : ∀ exchange ∈ past, exchange.call.jobId ≠ call.jobId) :
    Recorded cfg sha256 (past ++ [enqueue cfg sha256 redis call]) (enqueue cfg sha256 redis call).after := by
  have outcome := enqueue_outcome cfg sha256 redis call
  have hcall : (enqueue cfg sha256 redis call).call = call := rfl
  have hbefore : (enqueue cfg sha256 redis call).before = redis := rfl
  generalize enqueue cfg sha256 redis call = exchange at outcome hcall hbefore
  -- a merged or rejected call leaves jobs, keys and records alone
  have keep : exchange.created = false → exchange.after.dedup = redis.dedup → exchange.after.status = redis.status →
      (∀ key entry, exchange.after.rate key = some entry → 1 ≤ entry.value ∧ ∃ opening ∈ past ++ [exchange],
        opening.opensWindow sha256 ∧ rateKey sha256 opening.call.request = key ∧
          entry.deadline = some (opening.call.evalAt + cfg.window)) →
      Recorded cfg sha256 (past ++ [exchange]) exchange.after := by
    intro notCreated hdedup hstatus hrate
    have old : ∀ first ∈ past ++ [exchange], first.created = true → first ∈ past := by
      intro first hmem hcreated
      rcases List.mem_append.mp hmem with hmem | hmem
      · exact hmem
      · rw [List.mem_singleton.mp hmem, notCreated] at hcreated
        simp at hcreated
    refine ⟨?_, ?_, ?_, hrate⟩
    · intro key entry hentry
      obtain ⟨first, hmem, rest⟩ := h.dedup_from key entry (hdedup ▸ hentry)
      exact ⟨first, List.mem_append_left _ hmem, rest⟩
    · intro first hmem hcreated now hnow hlive
      rw [hdedup]
      exact h.dedup_live first (old first hmem hcreated) hcreated now
        (fun exchange hexchange => hnow exchange (List.mem_append_left _ hexchange)) hlive
    · intro first hmem hcreated
      rw [hstatus]
      exact h.status_from first (old first hmem hcreated) hcreated
  cases outcome with
  | merged existing hlive hafter hanswer =>
    refine keep (by simp [Exchange.created, hanswer]) (by rw [hafter]) (by rw [hafter]) ?_
    intro key entry hrate
    rw [hafter] at hrate
    exact h.mono_rate hrate
  | rejected ttl hfree hover hafter hanswer =>
    refine keep (by simp [Exchange.created, hanswer]) (by rw [hafter]; rfl) (by rw [hafter]; rfl) ?_
    intro key entry hrate
    rw [hafter] at hrate
    exact h.counted hcall hbefore (by simp [Exchange.merged, hanswer]) hrate
  | admitted streamId hfree hwithin hafter hanswer =>
    have created : exchange.created = true := by simp [Exchange.created, hanswer]
    rw [hafter]
    refine ⟨?_, ?_, ?_, ?_⟩
    · intro key entry hentry
      rcases Store.set_eq_some hentry with ⟨rfl, rfl⟩ | ⟨-, hentry⟩
      · exact ⟨exchange, by simp, created, by rw [hcall], by rw [hcall]⟩
      · obtain ⟨first, hmem, rest⟩ := h.dedup_from key entry hentry
        exact ⟨first, List.mem_append_left _ hmem, rest⟩
    · intro first hmem hcreated now hnow hlive
      rcases List.mem_append.mp hmem with hmem | hmem
      · have later : call.evalAt ≤ now := hcall ▸ hnow exchange (by simp)
        have live := h.dedup_live first hmem hcreated call.evalAt hordered (Nat.lt_of_le_of_lt later hlive)
        -- the key of a job that is still cooling down is not free
        have hne : dedupKey sha256 first.call.request ≠ dedupKey sha256 call.request := by
          intro hkey
          rw [hkey] at live
          rw [Store.get_until live (Nat.lt_of_le_of_lt later hlive)] at hfree
          simp at hfree
        exact (Store.set_of_ne _ _ hne).trans live
      · rw [List.mem_singleton.mp hmem, hcall]
        exact Store.set_self _ _ _
    · intro first hmem hcreated
      rcases List.mem_append.mp hmem with hmem | hmem
      · obtain ⟨streamId, hstatus⟩ := h.status_from first hmem hcreated
        exact ⟨streamId, (Store.set_of_ne _ _ (hfresh first hmem)).trans hstatus⟩
      · rw [List.mem_singleton.mp hmem, hcall]
        exact ⟨_, Store.set_self _ _ _⟩
    · intro key entry hrate
      exact h.counted hcall hbefore (by simp [Exchange.merged, hanswer]) hrate

variable (cfg sha256) in
/-- The run lemma. -/
theorem recorded_run {calls : List Call} (h : Schedule calls) :
    Recorded cfg sha256 (history cfg sha256 Redis.start calls) (finish cfg sha256 Redis.start calls) := by
  induction calls using List.reverseRecOn with
  | nil => exact recorded_start
  | append_singleton calls call ih =>
    rw [history_concat, finish_append]
    have calls_of : ∀ exchange ∈ history cfg sha256 Redis.start calls, exchange.call ∈ calls := by
      intro exchange hmem
      have hcall := List.mem_map_of_mem (f := fun exchange : Exchange => exchange.call) hmem
      rwa [map_call_history] at hcall
    refine (ih h.take).step (fun exchange hmem => (h.evalAt_le _ (calls_of exchange hmem)).2) ?_
    intro exchange hmem hid
    have fresh := h.fresh
    rw [List.map_append] at fresh
    exact (List.nodup_append.mp fresh).2.2 _ (List.mem_map_of_mem (calls_of exchange hmem)) _ (by simp) hid

/-! ## The counter of a window -/

theorem rateKey_injective (hsha : Function.Injective sha256) {a b : MaintenanceJobRequest}
    (h : rateKey sha256 a = rateKey sha256 b) : a.kind = b.kind ∧ a.requestedBy = b.requestedBy :=
  rateMaterial_injective (hsha h)

theorem sameSubmitter_of_rateKey (hsha : Function.Injective sha256) {first second : Exchange}
    (h : rateKey sha256 first.call.request = rateKey sha256 second.call.request) : SameSubmitter first second :=
  rateKey_injective hsha h

theorem rateKey_of_sameSubmitter {first second : Exchange} (h : SameSubmitter first second) :
    rateKey sha256 first.call.request = rateKey sha256 second.call.request := by
  simp [rateKey, rateMaterial, h.1, h.2]

/-- After the exchanges since `opening` the window's jobs are within the limit, and while the window is open they are
no more than its counter says. -/
structure Window (cfg : MaintenanceQueueConfig) (sha256 : String → String) (opening : Exchange) (since : List Exchange)
    (redis : Redis) : Prop where
  bounded : (createdInWindow cfg opening since).length ≤ cfg.submissionLimit
  counter : ∀ now, (∀ exchange ∈ since, exchange.call.evalAt ≤ now) → now < opening.call.evalAt + cfg.window →
    ∃ n, 1 ≤ n ∧ (createdInWindow cfg opening since).length ≤ n ∧
      redis.rate (rateKey sha256 opening.call.request) = some ⟨n, some (opening.call.evalAt + cfg.window)⟩

theorem createdInWindow_concat (cfg : MaintenanceQueueConfig) (opening : Exchange) (since : List Exchange) (exchange : Exchange) :
    (createdInWindow cfg opening (since ++ [exchange])).length = (createdInWindow cfg opening since).length +
      if exchange.created = true ∧ SameSubmitter opening exchange ∧
          exchange.call.evalAt < opening.call.evalAt + cfg.window then 1 else 0 := by
  have counts : (exchange.created && decide (SameSubmitter opening exchange ∧
      exchange.call.evalAt < opening.call.evalAt + cfg.window)) = decide (exchange.created = true ∧
        SameSubmitter opening exchange ∧ exchange.call.evalAt < opening.call.evalAt + cfg.window) := by simp
  rw [createdInWindow, List.filter_append, List.length_append, List.filter_cons, counts]
  split <;> simp_all [createdInWindow]

theorem Window.opened (hopens : (enqueue cfg sha256 redis call).opensWindow sha256) :
    Window cfg sha256 (enqueue cfg sha256 redis call) [enqueue cfg sha256 redis call]
      (enqueue cfg sha256 redis call).after := by
  have one : ∀ exchange : Exchange, (createdInWindow cfg exchange [exchange]).length ≤ 1 := fun exchange =>
    List.length_filter_le _ [exchange]
  refine ⟨Nat.le_trans (one _) cfg.limit_pos, fun now _ _ => ⟨1, Nat.le_refl 1, one _, ?_⟩⟩
  have opened : redis.counter cfg sha256 call = ⟨1, some (call.evalAt + cfg.window)⟩ := counter_opened hopens.2
  have stored : (redis.counted cfg sha256 call).rate (rateKey sha256 call.request) =
      some ⟨1, some (call.evalAt + cfg.window)⟩ := by
    rw [← opened]
    exact Store.set_self _ _ _
  cases enqueue_outcome cfg sha256 redis call with
  | merged existing hlive hafter hanswer => simp [Exchange.opensWindow, Exchange.merged, hanswer] at hopens
  | rejected ttl hfree hover hafter hanswer => rw [hafter]; exact stored
  | admitted streamId hfree hwithin hafter hanswer => rw [hafter]; exact stored

theorem Window.step {opening : Exchange} {since : List Exchange}
    (h : Window cfg sha256 opening since redis) (hordered : ∀ exchange ∈ since, exchange.call.evalAt ≤ call.evalAt) :
    Window cfg sha256 opening (since ++ [enqueue cfg sha256 redis call]) (enqueue cfg sha256 redis call).after := by
  have outcome := enqueue_outcome cfg sha256 redis call
  have hcall : (enqueue cfg sha256 redis call).call = call := rfl
  generalize enqueue cfg sha256 redis call = exchange at outcome hcall
  by_cases hlate : opening.call.evalAt + cfg.window ≤ call.evalAt
  · -- the window is over: nothing counts for it any more
    have same : (createdInWindow cfg opening (since ++ [exchange])).length = (createdInWindow cfg opening since).length := by
      rw [createdInWindow_concat, hcall, if_neg (by omega), Nat.add_zero]
    refine ⟨same ▸ h.bounded, fun now hnow hopen => ?_⟩
    have late := hnow exchange (by simp)
    rw [hcall] at late
    omega
  · obtain ⟨n, positive, hcount, hrate⟩ := h.counter call.evalAt hordered (by omega)
    by_cases hsame : rateKey sha256 call.request = rateKey sha256 opening.call.request
    · have hfind : redis.rate.find call.evalAt (rateKey sha256 call.request) =
          some ⟨n, some (opening.call.evalAt + cfg.window)⟩ :=
        Store.find_eq_some.mpr ⟨hsame ▸ hrate, live_until.mpr (by omega)⟩
      have hcounter : redis.counter cfg sha256 call = _ := counter_continued positive hfind
      have stored : (redis.counted cfg sha256 call).rate (rateKey sha256 opening.call.request) =
          some ⟨n + 1, some (opening.call.evalAt + cfg.window)⟩ := by
        rw [← hsame, ← hcounter]
        exact Store.set_self _ _ _
      have grows := createdInWindow_concat cfg opening since exchange
      cases outcome with
      | merged existing hlive hafter hanswer =>
        rw [if_neg (by simp [Exchange.created, hanswer]), Nat.add_zero] at grows
        refine ⟨grows ▸ h.bounded, fun now _ _ => ⟨n, positive, grows ▸ hcount, ?_⟩⟩
        rw [hafter]
        exact hrate
      | rejected ttl hfree hover hafter hanswer =>
        rw [if_neg (by simp [Exchange.created, hanswer]), Nat.add_zero] at grows
        refine ⟨grows ▸ h.bounded, fun now _ _ => ⟨n + 1, by omega, by omega, ?_⟩⟩
        rw [hafter]
        exact stored
      | admitted streamId hfree hwithin hafter hanswer =>
        rw [hcounter] at hwithin
        have within : n + 1 ≤ cfg.submissionLimit := hwithin
        have grown : (createdInWindow cfg opening (since ++ [exchange])).length ≤ n + 1 := by
          rw [grows]
          split <;> omega
        refine ⟨Nat.le_trans grown within, fun now _ _ => ⟨n + 1, by omega, grown, ?_⟩⟩
        rw [hafter]
        exact stored
    · have other : ¬ SameSubmitter opening exchange := by
        intro hsubmitter
        have hkey : rateKey sha256 opening.call.request = rateKey sha256 exchange.call.request :=
          rateKey_of_sameSubmitter hsubmitter
        rw [hcall] at hkey
        exact hsame hkey.symm
      have same : (createdInWindow cfg opening (since ++ [exchange])).length =
          (createdInWindow cfg opening since).length := by
        rw [createdInWindow_concat, if_neg (fun hboth => other hboth.2.1), Nat.add_zero]
      have untouched : exchange.after.rate (rateKey sha256 opening.call.request) =
          redis.rate (rateKey sha256 opening.call.request) := by
        have counted : (redis.counted cfg sha256 call).rate (rateKey sha256 opening.call.request) =
            redis.rate (rateKey sha256 opening.call.request) := Store.set_of_ne _ _ (Ne.symm hsame)
        cases outcome with
        | merged existing hlive hafter hanswer => rw [hafter]
        | rejected ttl hfree hover hafter hanswer => rw [hafter, counted]
        | admitted streamId hfree hwithin hafter hanswer => rw [hafter]; exact counted
      exact ⟨same ▸ h.bounded, fun now _ _ => ⟨n, positive, same ▸ hcount, untouched.trans hrate⟩⟩

theorem window_run {calls later : List Call}
    (h : Schedule (calls ++ call :: later))
    (hopens : (enqueue cfg sha256 (finish cfg sha256 Redis.start calls) call).opensWindow sha256) :
    Window cfg sha256 (enqueue cfg sha256 (finish cfg sha256 Redis.start calls) call)
      (history cfg sha256 (finish cfg sha256 Redis.start calls) (call :: later))
      (finish cfg sha256 (finish cfg sha256 Redis.start calls) (call :: later)) := by
  induction later using List.reverseRecOn with
  | nil => exact Window.opened hopens
  | append_singleton later next ih =>
    have split : calls ++ call :: (later ++ [next]) = (calls ++ call :: later) ++ next :: [] := by simp
    rw [← List.cons_append, history_concat, finish_append]
    rw [split] at h
    refine (ih h.take).step fun exchange hmem => (h.evalAt_le exchange.call ?_).2
    have hcall := List.mem_map_of_mem (f := fun exchange : Exchange => exchange.call) hmem
    rw [map_call_history] at hcall
    exact List.mem_append_right _ hcall

/-! ## The promises of a run -/

variable {calls : List Call}

theorem rate_bounded_run (h : Schedule calls) {earlier later : List Exchange} {opening : Exchange}
    (hcut : history cfg sha256 Redis.start calls = earlier ++ opening :: later) (hopens : opening.opensWindow sha256) :
    (createdInWindow cfg opening (opening :: later)).length ≤ cfg.submissionLimit := by
  obtain ⟨before, call, after, rfl, rfl, rfl, rfl⟩ := history_cut hcut
  exact (window_run h hopens).bounded

theorem rate_windows_run (hsha : Function.Injective sha256) (h : Schedule calls) {exchange : Exchange}
    (hmem : exchange ∈ history cfg sha256 Redis.start calls) (hcreated : exchange.created = true) :
    ∃ opening ∈ history cfg sha256 Redis.start calls, opening.opensWindow sha256 ∧
      exchange ∈ createdInWindow cfg opening (history cfg sha256 Redis.start calls) := by
  obtain ⟨before, call, after, rfl, rfl⟩ := mem_history hmem
  have notMerged : (enqueue cfg sha256 (finish cfg sha256 Redis.start before) call).merged = false := by
    revert hcreated
    unfold Exchange.created Exchange.merged
    cases (enqueue cfg sha256 (finish cfg sha256 Redis.start before) call).answer <;> simp
  cases hfind : (finish cfg sha256 Redis.start before).rate.find call.evalAt (rateKey sha256 call.request) with
  | none =>
    refine ⟨_, hmem, ⟨notMerged, hfind⟩, ?_⟩
    have window : 0 < cfg.window := Nat.mul_pos (by decide) cfg.window_pos
    simpa [createdInWindow, hmem, hcreated, SameSubmitter] using window
  | some entry =>
    obtain ⟨hentry, hlive⟩ := Store.find_eq_some.mp hfind
    obtain ⟨-, opening, hopening, opens, hkey, hdeadline⟩ := (recorded_run cfg sha256 h.take).rate_from _ _ hentry
    have live : call.evalAt < opening.call.evalAt + cfg.window := by
      obtain ⟨value, deadline⟩ := entry
      simp only at hdeadline
      subst hdeadline
      exact live_until.mp hlive
    refine ⟨opening, history_append before _ ▸ List.mem_append_left _ hopening, opens, ?_⟩
    have submitter : SameSubmitter opening (enqueue cfg sha256 (finish cfg sha256 Redis.start before) call) :=
      sameSubmitter_of_rateKey hsha hkey
    simp [createdInWindow, hmem, hcreated, live, submitter]

/-- A record that is still there when it is read is the answer. -/
theorem readStatus_live {record : StatusRecord} {deadline : ℕ} {jobId : String} {deduplicated : Bool}
    (h : redis.status jobId = some ⟨record, some deadline⟩) (hread : call.readAt < deadline) :
    (readStatus redis call jobId deduplicated).toOption.map (·.record.jobId) = some record.jobId := by
  rw [readStatus, Store.get_until h hread]
  rfl

theorem readStatus_from {record : StatusRecord} {deadline : Option ℕ} {jobId id : String} {deduplicated : Bool}
    (h : redis.status jobId = some ⟨record, deadline⟩)
    (hread : (readStatus redis call jobId deduplicated).toOption.map (·.record.jobId) = some id) : record.jobId = id := by
  unfold readStatus at hread
  cases hget : redis.status.get call.readAt jobId with
  | none => simp [hget, Except.toOption] at hread
  | some found =>
    obtain ⟨other, hfind⟩ := Store.get_eq_some.mp hget
    have hfound := (Store.find_eq_some.mp hfind).1
    rw [h, Option.some.injEq, Entry.mk.injEq] at hfound
    simpa [hget, Except.toOption, hfound.1] using hread

variable (cfg sha256) in
/-- The call's own record, after it was admitted. -/
theorem own_record (h : Schedule (calls ++ [call]))
    (hcreated : (enqueue cfg sha256 (finish cfg sha256 Redis.start calls) call).created = true) :
    ∃ streamId, (enqueue cfg sha256 (finish cfg sha256 Redis.start calls) call).after.status call.jobId =
      some ⟨call.record streamId, some (call.evalAt + cfg.statusTtl)⟩ := by
  have recorded := recorded_run cfg sha256 h
  rw [history_concat, finish_append] at recorded
  exact recorded.status_from _ (by simp) hcreated

theorem created_answer (hcreated : (enqueue cfg sha256 redis call).created = true) :
    ∃ streamId, (enqueue cfg sha256 redis call).answer = .queued call.jobId streamId := by
  cases enqueue_outcome cfg sha256 redis call with
  | merged existing hlive hafter hanswer => simp [Exchange.created, hanswer] at hcreated
  | rejected ttl hfree hover hafter hanswer => simp [Exchange.created, hanswer] at hcreated
  | admitted id hfree hwithin hafter hanswer => exact ⟨id, hanswer⟩

theorem created_result (h : Schedule (calls ++ [call]))
    (hcreated : (enqueue cfg sha256 (finish cfg sha256 Redis.start calls) call).created = true)
    (hread : call.readAt < call.evalAt + cfg.statusTtl) :
    (enqueue cfg sha256 (finish cfg sha256 Redis.start calls) call).result.toOption.map (·.record.jobId) =
      some call.jobId := by
  obtain ⟨streamId, hanswer⟩ := created_answer hcreated
  obtain ⟨id, hown⟩ := own_record cfg sha256 h hcreated
  rw [enqueue_result, hanswer]
  exact readStatus_live hown hread

theorem evalAt_of_history (h : Schedule (calls ++ call :: [])) {exchange : Exchange}
    (hmem : exchange ∈ history cfg sha256 Redis.start calls) : exchange.call.evalAt ≤ call.evalAt := by
  have hcall := List.mem_map_of_mem (f := fun exchange : Exchange => exchange.call) hmem
  rw [map_call_history] at hcall
  exact (h.evalAt_le _ hcall).2

/-- A call with the key of a job that cools down is merged into it. -/
theorem merged_into (h : Schedule (calls ++ [call])) {first : Exchange}
    (hmem : first ∈ history cfg sha256 Redis.start calls) (hcreated : first.created = true)
    (hkey : dedupKey sha256 call.request = dedupKey sha256 first.call.request)
    (hcooling : call.evalAt < first.call.evalAt + cfg.cooldown) :
    (enqueue cfg sha256 (finish cfg sha256 Redis.start calls) call).answer = .deduplicated first.call.jobId ∧
      (enqueue cfg sha256 (finish cfg sha256 Redis.start calls) call).after = finish cfg sha256 Redis.start calls := by
  have live := (recorded_run cfg sha256 h.take).dedup_live first hmem hcreated call.evalAt
    (fun exchange hexchange => evalAt_of_history h hexchange) hcooling
  rw [← hkey] at live
  have hdedup := Store.get_until live hcooling
  cases enqueue_outcome cfg sha256 (finish cfg sha256 Redis.start calls) call with
  | rejected ttl hfree hover hafter hanswer => simp [hdedup] at hfree
  | admitted id hfree hwithin hafter hanswer => simp [hdedup] at hfree
  | merged existing hlive hafter hanswer =>
    obtain rfl : first.call.jobId = existing := by simpa [hdedup] using hlive
    exact ⟨hanswer, hafter⟩

theorem cooldown_run (httl : cfg.dedupCooldownSeconds ≤ cfg.statusTtlSeconds) (h : Schedule calls)
    {earlier later : List Exchange} {first second : Exchange}
    (hcut : history cfg sha256 Redis.start calls = earlier ++ first :: later) (hcreated : first.created = true)
    (hsecond : second ∈ later) (hrequest : second.call.request = first.call.request)
    (hcooling : second.call.readAt < first.call.evalAt + cfg.cooldown) :
    second.created = false ∧ first.result.toOption.map (·.record.jobId) = some first.call.jobId ∧
      second.result.toOption.map (·.record.jobId) = some first.call.jobId := by
  have longer : cfg.cooldown ≤ cfg.statusTtl := Nat.mul_le_mul_left 1000 httl
  obtain ⟨before, call, after, rfl, rfl, hfirst, rfl⟩ := history_cut hcut
  obtain ⟨between, next, rest, rfl, rfl⟩ := mem_history hsecond
  have firstCut : Schedule ((before ++ [call]) ++ (between ++ next :: rest)) := by simpa using h
  have upToFirst : Schedule (before ++ [call]) := firstCut.take
  have nextCut : Schedule (((before ++ call :: between) ++ [next]) ++ rest) := by simpa using h
  have upToNext : Schedule ((before ++ call :: between) ++ [next]) := nextCut.take
  have reached : finish cfg sha256 first.after between = finish cfg sha256 Redis.start (before ++ call :: between) := by
    rw [finish_append, hfirst]
    rfl
  have hmem : first ∈ history cfg sha256 Redis.start (before ++ call :: between) := by
    rw [history_append, hfirst]
    simp [history]
  have read : call.readAt ≤ next.evalAt := (upToNext.evalAt_le call (by simp)).1
  have reads : next.evalAt ≤ next.readAt := upToNext.reads next (by simp)
  have callOf : first.call = call := by rw [hfirst]; rfl
  rw [reached] at hrequest hcooling ⊢
  rw [callOf] at hcooling
  change next.readAt < call.evalAt + cfg.cooldown at hcooling
  obtain ⟨hanswer, hafter⟩ := merged_into upToNext hmem hcreated (congrArg _ hrequest) (by rw [callOf]; omega)
  obtain ⟨streamId, hstatus⟩ :=
    (recorded_run cfg sha256 upToNext.take).status_from first hmem hcreated
  refine ⟨by simp [Exchange.created, hanswer], ?_, ?_⟩
  · have readFirst : call.readAt < call.evalAt + cfg.statusTtl := by omega
    rw [callOf]
    rw [hfirst] at hcreated ⊢
    exact created_result upToFirst hcreated readFirst
  · have readNext : next.readAt < first.call.evalAt + cfg.statusTtl := by rw [callOf]; omega
    rw [enqueue_result, hanswer, hafter]
    exact readStatus_live hstatus readNext

/-- Of one job id there is one call. -/
theorem call_of_jobId (h : Schedule calls) {first second : Call} (hfirst : first ∈ calls) (hsecond : second ∈ calls)
    (hid : first.jobId = second.jobId) : first = second := List.inj_on_of_nodup_map h.fresh hfirst hsecond hid

theorem never_merged_run (hsha : Function.Injective sha256) (h : Schedule calls)
    (separated : ∀ first ∈ calls, ∀ second ∈ calls,
      dedupMaterial first.request = dedupMaterial second.request → first.request = second.request)
    {first second : Exchange} (hfirst : first ∈ history cfg sha256 Redis.start calls)
    (hsecond : second ∈ history cfg sha256 Redis.start calls)
    (hid : second.result.toOption.map (·.record.jobId) = some first.call.jobId) :
    second.call.request = first.call.request := by
  have called : ∀ exchange ∈ history cfg sha256 Redis.start calls, exchange.call ∈ calls := by
    intro exchange hmem
    have hcall := List.mem_map_of_mem (f := fun exchange : Exchange => exchange.call) hmem
    rwa [map_call_history] at hcall
  have firstCall := called first hfirst
  obtain ⟨before, call, after, rfl, rfl⟩ := mem_history hsecond
  have hcut : Schedule ((before ++ [call]) ++ after) := by simpa using h
  have upTo : Schedule (before ++ [call]) := hcut.take
  have recorded := recorded_run cfg sha256 upTo.take
  rw [enqueue_result] at hid
  cases enqueue_outcome cfg sha256 (finish cfg sha256 Redis.start before) call with
  | rejected ttl hfree hover hafter hanswer => simp [hanswer, enqueueResult, Except.toOption] at hid
  | admitted id hfree hwithin hafter hanswer =>
    obtain ⟨streamId, hown⟩ := own_record cfg sha256 upTo (by simp [Exchange.created, hanswer])
    rw [hanswer] at hid
    have same := call_of_jobId h (by simp) firstCall (readStatus_from hown hid)
    rw [← same]
    rfl
  | merged existing hlive hafter hanswer =>
    -- the live key was written by a job of the run, and that job's record is what is read
    obtain ⟨deadline, hfind⟩ := Store.get_eq_some.mp hlive
    obtain ⟨job, hjob, hcreated, hkey, hentry⟩ := recorded.dedup_from _ _ (Store.find_eq_some.mp hfind).1
    obtain ⟨streamId, hstatus⟩ := recorded.status_from job hjob hcreated
    have hjobId : existing = job.call.jobId := (Entry.mk.inj hentry).1
    rw [hanswer, hafter, hjobId] at hid
    have jobCall : job.call ∈ before ++ call :: after :=
      called job (history_append before (call :: after) ▸ List.mem_append_left _ hjob)
    have same := call_of_jobId h jobCall firstCall (readStatus_from hstatus hid)
    rw [← same]
    exact (separated job.call jobCall call (by simp) (hsha hkey)).symm

theorem traceless_run {exchange : Exchange} (hmem : exchange ∈ history cfg sha256 Redis.start calls)
    (h : exchange.created = false) :
    exchange.after.stream = exchange.before.stream ∧ exchange.after.status = exchange.before.status := by
  obtain ⟨before, call, after, -, rfl⟩ := mem_history hmem
  cases enqueue_outcome cfg sha256 (finish cfg sha256 Redis.start before) call with
  | merged existing hlive hafter hanswer => rw [hafter]; exact ⟨rfl, rfl⟩
  | rejected ttl hfree hover hafter hanswer => rw [hafter]; exact ⟨rfl, rfl⟩
  | admitted id hfree hwithin hafter hanswer => simp [Exchange.created, hanswer] at h

theorem merged_free_run {exchange : Exchange} (hmem : exchange ∈ history cfg sha256 Redis.start calls)
    (h : exchange.merged = true) : exchange.after.rate = exchange.before.rate := by
  obtain ⟨before, call, after, -, rfl⟩ := mem_history hmem
  cases enqueue_outcome cfg sha256 (finish cfg sha256 Redis.start before) call with
  | merged existing hlive hafter hanswer => rw [hafter]; rfl
  | rejected ttl hfree hover hafter hanswer => simp [Exchange.merged, hanswer] at h
  | admitted id hfree hwithin hafter hanswer => simp [Exchange.merged, hanswer] at h

/-- Two calls at one time. -/
def callPair (a b : MaintenanceJobRequest) : List Call := [⟨a, "1", "", 0, 0, 0⟩, ⟨b, "2", "", 0, 0, 0⟩]

theorem callPair_schedule (a b : MaintenanceJobRequest) : Schedule (callPair a b) :=
  ⟨by simp [callPair], by simp [callPair], by simp [callPair]⟩

variable (cfg sha256) in
/-- Of two requests with one key material the second is answered with the first one's job. -/
theorem pair_merged {a b : MaintenanceJobRequest} (hmaterial : dedupMaterial a = dedupMaterial b) :
    ∃ first second, history cfg sha256 Redis.start (callPair a b) = [first, second] ∧
      first.call = ⟨a, "1", "", 0, 0, 0⟩ ∧ second.call = ⟨b, "2", "", 0, 0, 0⟩ ∧ first.created = true ∧
      second.result.toOption.map (·.record.jobId) = some "1" := by
  have schedule := callPair_schedule a b
  have created : (enqueue cfg sha256 Redis.start ⟨a, "1", "", 0, 0, 0⟩).created = true := by
    cases enqueue_outcome cfg sha256 Redis.start ⟨a, "1", "", 0, 0, 0⟩ with
    | merged existing hlive => simp [Redis.start, Store.get, Store.find, Expiring.empty] at hlive
    | admitted id hfree hwithin hafter hanswer => simp [Exchange.created, hanswer]
    | rejected ttl hfree hover =>
      rw [counter_opened (by simp [Redis.start, Store.find, Expiring.empty])] at hover
      exact absurd cfg.limit_pos (by simpa using hover)
  have window : 0 < cfg.cooldown := Nat.mul_pos (by decide) cfg.cooldown_pos
  have ttl : 0 < cfg.statusTtl := Nat.mul_pos (by decide) (Nat.le_trans (by decide) cfg.statusTtl_pos)
  have both : Schedule ([⟨a, "1", "", 0, 0, 0⟩] ++ [⟨b, "2", "", 0, 0, 0⟩]) := schedule
  have hmem : enqueue cfg sha256 Redis.start ⟨a, "1", "", 0, 0, 0⟩ ∈
      history cfg sha256 Redis.start [⟨a, "1", "", 0, 0, 0⟩] := by simp [history]
  obtain ⟨hanswer, hafter⟩ := merged_into both hmem created (congrArg sha256 hmaterial.symm) (by simpa using window)
  have alone : Schedule ([] ++ [⟨a, "1", "", 0, 0, 0⟩]) := both.take
  obtain ⟨streamId, hown⟩ := own_record cfg sha256 alone created
  refine ⟨_, _, rfl, rfl, rfl, created, ?_⟩
  change (enqueue cfg sha256 (finish cfg sha256 Redis.start [⟨a, "1", "", 0, 0, 0⟩]) _).result.toOption.map _ = _
  rw [enqueue_result, hanswer, hafter]
  exact readStatus_live hown (by simpa using ttl)

/-- The promises hold of every run over a set of requests exactly when their joined texts tell the requests apart. -/
theorem admitted_iff (hsha : Function.Injective sha256) (httl : cfg.dedupCooldownSeconds ≤ cfg.statusTtlSeconds)
    (requests : Set MaintenanceJobRequest) :
    (∀ calls : List Call, Schedule calls → (∀ call ∈ calls, call.request ∈ requests) →
        Admitted cfg sha256 (history cfg sha256 Redis.start calls)) ↔
      ∀ a ∈ requests, ∀ b ∈ requests, dedupMaterial a = dedupMaterial b → a = b := by
  constructor
  · intro admitted a ha b hb hmaterial
    obtain ⟨first, second, hhistory, hfirst, hsecond, created, answered⟩ :=
      pair_merged cfg sha256 hmaterial
    have promises := admitted (callPair a b) (callPair_schedule a b) (by simp [callPair, ha, hb])
    rw [hhistory] at promises
    have same := promises.never_merged first (by simp) created second (by simp) (by rw [hfirst]; exact answered)
    rw [hfirst, hsecond] at same
    exact same.symm
  · intro separated calls schedule hrequests
    exact {
      rate_bounded := fun _ _ _ hcut hopens => rate_bounded_run schedule hcut hopens
      rate_windows := fun _ hmem hcreated => rate_windows_run hsha schedule hmem hcreated
      cooldown := fun _ _ _ hcut hcreated _ hsecond hrequest hcooling =>
        cooldown_run httl schedule hcut hcreated hsecond hrequest hcooling
      never_merged := fun _ hfirst _ _ hsecond hid => never_merged_run hsha schedule
        (fun first hmem second hmem' => separated _ (hrequests first hmem) _ (hrequests second hmem')) hfirst hsecond hid
      merged_free := fun _ hmem hmerged => merged_free_run hmem hmerged
      unadmitted_traceless := fun _ hmem hcreated => traceless_run hmem hcreated }

end Steps

/-! ## A separator in the requester -/

def defaultSettings : MaintenanceQueueConfig :=
  ⟨86400, 60, 6, 60, 10000, by decide, by decide, by decide, by decide, by decide⟩

def reindexRequest (requestedBy sourceId : String) (h : requestedBy ≠ "") (h' : sourceId ≠ "") : MaintenanceJobRequest :=
  ⟨.embeddingReindex, requestedBy, sourceId, 250, false, h, h'⟩

def plainRequester : MaintenanceJobRequest := reindexRequest "a" "b\x1fc" (by decide) (by decide)

def joinedRequester : MaintenanceJobRequest := reindexRequest "a\x1fb" "c" (by decide) (by decide)

/-- Requester "a", source "b\x1fc" against requester "a\x1fb", source "c". -/
theorem requests_merged : ¬ ∀ (cfg : MaintenanceQueueConfig) (sha256 : String → String), Function.Injective sha256 →
    cfg.dedupCooldownSeconds ≤ cfg.statusTtlSeconds → ∀ calls : List Call, Schedule calls →
      Admitted cfg sha256 (history cfg sha256 Redis.start calls) := by
  intro admitted
  have material : dedupMaterial plainRequester = dedupMaterial joinedRequester := by decide
  obtain ⟨first, second, hhistory, hfirst, hsecond, created, answered⟩ :=
    pair_merged defaultSettings id material
  have promises := admitted defaultSettings id Function.injective_id (by decide) (callPair plainRequester joinedRequester)
    (callPair_schedule _ _)
  rw [hhistory] at promises
  have same := promises.never_merged first (by simp) created second (by simp) (by rw [hfirst]; exact answered)
  rw [hfirst, hsecond] at same
  exact absurd same (by decide)

/-- The requests whose texts have no separator. -/
def plainRequests : Set MaintenanceJobRequest :=
  {request | '\x1f' ∉ request.requestedBy.toList ∧ '\x1f' ∉ request.sourceId.toList}

theorem plain_requests_admitted : reindexRequest "a" "c" (by decide) (by decide) ∈ plainRequests ∧
    ∀ calls : List Call, Schedule calls → (∀ call ∈ calls, call.request ∈ plainRequests) →
      Admitted defaultSettings id (history defaultSettings id Redis.start calls) := by
  refine ⟨⟨by decide, by decide⟩, ?_⟩
  exact (admitted_iff Function.injective_id (by decide) plainRequests).mpr fun _ ha _ hb hmaterial =>
    dedupMaterial_injective ha.1 ha.2 hb.1 hb.2 hmaterial

end Alexandria.Maintenance.Admission
