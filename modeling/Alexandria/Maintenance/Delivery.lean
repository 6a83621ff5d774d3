import Alexandria.Maintenance.Queue

/-! # Who holds a stream entry

What one command can touch, and the ownership of entries it preserves: as long as auto-claim takes only
entries no worker is still working on, an entry has at most one holder, and the holder's entry stays in
the pending list until that holder acknowledges it.
-/

namespace Alexandria.Maintenance
set_option autoImplicit false

variable {J W : Type}

/-! ## Ownership -/

/-- Auto-claim takes only entries that no worker is working on. -/
def Unheld (s : System J W) : Label J W → Prop
  | .autoclaim _ e => ∀ w j p, s.workers w ≠ .busy e j p
  | _ => True

structure Owned (s : System J W) : Prop where
  nodup : s.redis.stream.Nodup
  issued : ∀ j ∈ s.redis.stream, s.issued j = true
  bound : s.redis.delivered ≤ s.redis.stream.length
  delivered : ∀ e, s.redis.pending e = true → e < s.redis.delivered
  held : ∀ w e j p, s.workers w = .busy e j p → s.redis.pending e = true ∧ s.redis.stream[e]? = some j
  alone : ∀ w v e i j p q, s.workers w = .busy e i p → s.workers v = .busy e j q → w = v

theorem owned_start : Owned (System.start : System J W) where
  nodup := List.nodup_nil
  issued := by simp [System.start]
  bound := Nat.le_refl _
  delivered := by simp [System.start]
  held := by simp [System.start]
  alone := by simp [System.start]

/-- An entry is determined by its job: a job is submitted once. -/
theorem Owned.entry_unique {s : System J W} (hs : Owned s) {e f : ℕ} {j : J}
    (he : s.redis.stream[e]? = some j) (hf : s.redis.stream[f]? = some j) : e = f := by
  obtain ⟨he', rfl⟩ := List.getElem?_eq_some_iff.mp he
  obtain ⟨hf', h⟩ := List.getElem?_eq_some_iff.mp hf
  exact ((List.Nodup.getElem_inj_iff hs.nodup).mp h).symm

/-- The holder of a job is unique. -/
theorem Owned.holder_unique {s : System J W} (hs : Owned s) {w v : W} {e f : ℕ} {j : J} {p q : Phase}
    (hw : s.workers w = .busy e j p) (hv : s.workers v = .busy f j q) : w = v := by
  have hef : e = f := hs.entry_unique (hs.held w e j p hw).2 (hs.held v f j q hv).2
  subst hef
  exact hs.alone w v e j j p q hw hv

theorem afterRecord_worker (cfg : MaintenanceQueueConfig) (e : ℕ) (j : J) (job : MaintenanceJobSnapshot)
    (attempt : ℕ) (outcome : JobOutcome) :
    afterRecord cfg e j job attempt outcome = .idle ∨ ∃ p, afterRecord cfg e j job attempt outcome = .busy e j p := by
  cases outcome with
  | result json => exact .inr ⟨_, rfl⟩
  | error summary =>
    by_cases h : cfg.maxAttempts ≤ attempt
    · exact .inr ⟨.burying job attempt summary, by simp [afterRecord, h]⟩
    · exact .inl (by simp [afterRecord, h])

/-! ## What one command touches -/

section Commands
variable [DecidableEq J] {cfg : MaintenanceQueueConfig}

/-- A command of the holder of entry `e` of job `j`: it keeps the stream, writes no other job's hash,
and either keeps the entry pending or acknowledges it and lets it go. -/
structure Touches (r : Redis J) (e : ℕ) (j : J) (r' : Redis J) (x : Worker J) : Prop where
  stream : r'.stream = r.stream
  delivered : r'.delivered = r.delivered
  hashes : ∀ i, i ≠ j → r'.hashes i = r.hashes i
  worker : x = .idle ∨ ∃ p, x = .busy e j p
  pending : r'.pending = r.pending ∨ r'.pending = Function.update r.pending e false ∧ x = .idle

theorem hset_other (r : Redis J) (j : J) (m : MaintenanceStatusMutation) (i : J) (h : i ≠ j) :
    (r.hset j m).hashes i = r.hashes i := by
  simp [Redis.hset, Function.update_of_ne h]

theorem hincrby_other (r : Redis J) (j i : J) (h : i ≠ j) : (r.hincrby j).hashes i = r.hashes i := by
  simp [Redis.hincrby, Function.update_of_ne h]

theorem advance_touches {now : String} {r r' : Redis J} {e : ℕ} {j : J} {p : Phase} {x : Worker J}
    (h : advance cfg now r e j p = some (r', x)) : Touches r e j r' x := by
  cases p with
  | received =>
    simp only [advance] at h
    split at h <;> cases h
    · exact ⟨rfl, rfl, fun _ _ => rfl, .inl rfl, .inl rfl⟩
    · exact ⟨rfl, rfl, fun _ _ => rfl, .inr ⟨_, rfl⟩, .inl rfl⟩
    · exact ⟨rfl, rfl, fun _ _ => rfl, .inr ⟨_, rfl⟩, .inl rfl⟩
  | dropping => cases h; exact ⟨rfl, rfl, fun _ _ => rfl, .inl rfl, .inr ⟨rfl, rfl⟩⟩
  | delivered job => cases h; exact ⟨rfl, rfl, hincrby_other r j, .inr ⟨_, rfl⟩, .inl rfl⟩
  | counted job n => cases h; exact ⟨rfl, rfl, hset_other r j _, .inr ⟨_, rfl⟩, .inl rfl⟩
  | marked job n => cases h; exact ⟨rfl, rfl, fun _ _ => rfl, .inr ⟨_, rfl⟩, .inl rfl⟩
  | ready job n => cases h; exact ⟨rfl, rfl, fun _ _ => rfl, .inr ⟨_, rfl⟩, .inl rfl⟩
  | executing job n => cases h
  | ended job n outcome => cases h; exact ⟨rfl, rfl, hset_other r j _, .inr ⟨_, rfl⟩, .inl rfl⟩
  | recorded job n outcome =>
    cases h
    exact ⟨rfl, rfl, fun _ _ => rfl, afterRecord_worker cfg e j job n outcome, .inl rfl⟩
  | burying job n summary => cases h; exact ⟨rfl, rfl, fun _ _ => rfl, .inr ⟨_, rfl⟩, .inl rfl⟩
  | acking job n => cases h; exact ⟨rfl, rfl, fun _ _ => rfl, .inl rfl, .inr ⟨rfl, rfl⟩⟩

end Commands

/-! ## Inverting a step -/

section Workers
variable [DecidableEq W]

@[simp] theorem setWorker_self (s : System J W) (w : W) (x : Worker J) : (s.setWorker w x).workers w = x := by
  simp [System.setWorker]

theorem setWorker_other (s : System J W) (w v : W) (x : Worker J) (h : v ≠ w) :
    (s.setWorker w x).workers v = s.workers v := by
  simp [System.setWorker, Function.update_of_ne h]

/-- Who holds what after worker `w` moved to `x`. -/
theorem holder_setWorker {s : System J W} {w v : W} {x : Worker J} {e : ℕ} {j : J} {p : Phase}
    (h : (s.setWorker w x).workers v = .busy e j p) :
    (v = w ∧ x = .busy e j p) ∨ (v ≠ w ∧ s.workers v = .busy e j p) := by
  by_cases hvw : v = w
  · subst hvw
    exact .inl ⟨rfl, by simpa using h⟩
  · exact .inr ⟨hvw, by rwa [setWorker_other s w v x hvw] at h⟩

@[simp] theorem setWorker_redis (s : System J W) (w : W) (x : Worker J) : (s.setWorker w x).redis = s.redis := rfl

@[simp] theorem setWorker_issued (s : System J W) (w : W) (x : Worker J) : (s.setWorker w x).issued = s.issued := rfl

end Workers

section Step
variable [DecidableEq J] [DecidableEq W] {cfg : MaintenanceQueueConfig}

theorem step_submit {s t : System J W} {j : J} {request : MaintenanceJobRequest}
    (h : step cfg s (.submit j request) = some t) : s.issued j = false ∧ t = s.enqueue j request := by
  simp only [step] at h
  split at h
  · simp at h
  · rename_i hj
    exact ⟨by simpa using hj, (Option.some.inj h).symm⟩

theorem step_autoclaim {s t : System J W} {w : W} {e : ℕ} (h : step cfg s (.autoclaim w e) = some t) :
    ∃ j, s.workers w = .idle ∧ s.redis.pending e = true ∧ s.redis.stream[e]? = some j ∧
      t = s.setWorker w (.busy e j .received) := by
  simp only [step] at h
  split at h
  · rename_i j hw hp hj
    exact ⟨j, hw, hp, hj, (Option.some.inj h).symm⟩
  · simp at h

theorem step_readgroup {s t : System J W} {w : W} (h : step cfg s (.readgroup w) = some t) :
    ∃ j, s.workers w = .idle ∧ s.redis.stream[s.redis.delivered]? = some j ∧
      t = { s.setWorker w (.busy s.redis.delivered j .received) with
        redis := { s.redis with
          delivered := s.redis.delivered + 1
          pending := Function.update s.redis.pending s.redis.delivered true } } := by
  simp only [step] at h
  split at h
  · rename_i j hw hj
    exact ⟨j, hw, hj, (Option.some.inj h).symm⟩
  · simp at h

theorem step_command {s t : System J W} {w : W} {now : String} (h : step cfg s (.command w now) = some t) :
    ∃ e j p r x, s.workers w = .busy e j p ∧ advance cfg now s.redis e j p = some (r, x) ∧
      t = { s.setWorker w x with redis := r, starts := startsAfter s j p } := by
  simp only [step] at h
  split at h
  · simp at h
  · rename_i e j p hw
    obtain ⟨⟨r, x⟩, ha, ht⟩ := Option.map_eq_some_iff.mp h
    exact ⟨e, j, p, r, x, hw, ha, ht.symm⟩

theorem step_handlerEnds {s t : System J W} {w : W} {outcome : JobOutcome}
    (h : step cfg s (.handlerEnds w outcome) = some t) :
    ∃ e j job n, s.workers w = .busy e j (.executing job n) ∧
      t = s.setWorker w (.busy e j (.ended job n outcome)) := by
  simp only [step] at h
  split at h
  · rename_i e j job n hw
    exact ⟨e, j, job, n, hw, (Option.some.inj h).symm⟩
  · simp at h

end Step

/-! ## Ownership is kept -/

/-- Moving one worker keeps ownership when the entry it now holds is its own and is pending. -/
theorem Owned.setWorker [DecidableEq W] {s : System J W} (hs : Owned s) (w : W) (x : Worker J)
    (hx : ∀ e j p, x = .busy e j p → s.redis.pending e = true ∧ s.redis.stream[e]? = some j ∧
      ∀ v, v ≠ w → ∀ i q, s.workers v ≠ .busy e i q) : Owned (s.setWorker w x) where
  nodup := hs.nodup
  issued := hs.issued
  bound := hs.bound
  delivered := hs.delivered
  held := by
    intro v e j p hv
    obtain ⟨-, hv⟩ | ⟨-, hv⟩ := holder_setWorker hv
    · exact ⟨(hx e j p hv).1, (hx e j p hv).2.1⟩
    · exact hs.held v e j p hv
  alone := by
    intro v u e i j p q hv hu
    obtain ⟨hvw, hv'⟩ | ⟨hvw, hv'⟩ := holder_setWorker hv <;>
      obtain ⟨huw, hu'⟩ | ⟨huw, hu'⟩ := holder_setWorker hu
    · rw [hvw, huw]
    · exact absurd hu' ((hx e i p hv').2.2 u huw j q)
    · exact absurd hv' ((hx e j q hu').2.2 v hvw i p)
    · exact hs.alone v u e i j p q hv' hu'

theorem Owned.submit [DecidableEq J] {s : System J W} (hs : Owned s) (j : J) (request : MaintenanceJobRequest)
    (hj : s.issued j = false) : Owned (s.enqueue j request) where
  nodup := by
    refine List.nodup_append.mpr ⟨hs.nodup, List.nodup_singleton j, ?_⟩
    intro a ha b hb hab
    rw [List.mem_singleton.mp hb] at hab
    have := hs.issued a ha
    rw [hab, hj] at this
    cases this
  issued := by
    intro i hi
    by_cases hij : i = j
    · simp [System.enqueue, hij]
    · have hmem : i ∈ s.redis.stream := by simpa [System.enqueue, hij] using hi
      simpa [System.enqueue, Function.update_of_ne hij] using hs.issued i hmem
  bound := by
    have := hs.bound
    simp only [System.enqueue, List.length_append, List.length_singleton]
    omega
  delivered := hs.delivered
  held := by
    intro w e i p hw
    obtain ⟨hp, hi⟩ := hs.held w e i p hw
    have hlt := (List.getElem?_eq_some_iff.mp hi).1
    exact ⟨hp, (List.getElem?_append_left hlt).trans hi⟩
  alone := hs.alone

theorem Owned.step [DecidableEq J] [DecidableEq W] {cfg : MaintenanceQueueConfig} {s t : System J W}
    {l : Label J W} (hs : Owned s) (hok : Unheld s l) (h : step cfg s l = some t) : Owned t := by
  cases l with
  | submit j request =>
    obtain ⟨hj, rfl⟩ := step_submit h
    exact hs.submit j request hj
  | ttl j =>
    cases h
    exact ⟨hs.nodup, hs.issued, hs.bound, hs.delivered, hs.held, hs.alone⟩
  | autoclaim w e =>
    obtain ⟨j, -, hp, hj, rfl⟩ := step_autoclaim h
    refine hs.setWorker w _ ?_
    rintro e' j' p ⟨⟩
    exact ⟨hp, hj, fun v _ i q => hok v i q⟩
  | readgroup w =>
    obtain ⟨j, -, hj, rfl⟩ := step_readgroup h
    have hlen := (List.getElem?_eq_some_iff.mp hj).1
    have fresh : ∀ v i q, s.workers v ≠ .busy s.redis.delivered i q := by
      intro v i q hv
      have := hs.delivered _ (hs.held v _ i q hv).1
      omega
    have grown : Owned { s with redis := { s.redis with
        delivered := s.redis.delivered + 1
        pending := Function.update s.redis.pending s.redis.delivered true } } := by
      refine ⟨hs.nodup, hs.issued, hlen, ?_, ?_, hs.alone⟩
      · intro e he
        by_cases hed : e = s.redis.delivered
        · simp only; omega
        · simp only [Function.update_of_ne hed] at he
          have := hs.delivered e he
          simp only; omega
      · intro v e i p hv
        have hne : e ≠ s.redis.delivered := by
          rintro rfl
          exact fresh v i p hv
        obtain ⟨hp, hi⟩ := hs.held v e i p hv
        exact ⟨by simpa [Function.update_of_ne hne] using hp, hi⟩
    refine grown.setWorker w _ ?_
    rintro e' j' p ⟨⟩
    exact ⟨by simp, hj, fun v _ i q => fresh v i q⟩
  | command w now =>
    obtain ⟨e, j, p, r, x, hw, ha, rfl⟩ := step_command h
    have touch := advance_touches ha
    obtain ⟨hpe, hje⟩ := hs.held w e j p hw
    have moved : Owned (s.setWorker w x) := by
      refine hs.setWorker w x ?_
      rintro e' j' p' rfl
      obtain hx | ⟨q, hx⟩ := touch.worker
      · simp at hx
      · cases hx
        exact ⟨hpe, hje, fun v hv i q' hv' => hv (hs.alone v w e i j q' p hv' hw)⟩
    refine ⟨?_, ?_, ?_, ?_, ?_, moved.alone⟩
    · simpa only [touch.stream] using hs.nodup
    · simpa only [touch.stream, setWorker_issued] using hs.issued
    · simpa only [touch.stream, touch.delivered] using hs.bound
    · intro f hf
      simp only [touch.delivered]
      obtain hp | ⟨hp, -⟩ := touch.pending
      · exact hs.delivered f (by simpa only [hp] using hf)
      · by_cases hfe : f = e
        · simp [hp, hfe] at hf
        · exact hs.delivered f (by simpa only [hp, Function.update_of_ne hfe] using hf)
    · intro v f i q hv
      obtain ⟨hpf, hif⟩ := moved.held v f i q hv
      rw [setWorker_redis] at hpf hif
      refine ⟨?_, by simpa only [touch.stream] using hif⟩
      obtain hp | ⟨hp, hx⟩ := touch.pending
      · simpa only [hp] using hpf
      · have hfe : f ≠ e := by
          rintro rfl
          obtain ⟨-, hv'⟩ | ⟨hvw, hv'⟩ := holder_setWorker (s := s) (w := w) (x := x) hv
          · rw [hx] at hv'
            simp at hv'
          · exact hvw (hs.alone v w f i j q p hv' hw)
        simpa only [hp, Function.update_of_ne hfe] using hpf
  | handlerEnds w outcome =>
    obtain ⟨e, j, job, n, hw, rfl⟩ := step_handlerEnds h
    obtain ⟨hpe, hje⟩ := hs.held w e j _ hw
    refine hs.setWorker w _ ?_
    rintro e' j' p ⟨⟩
    exact ⟨hpe, hje, fun v hv i q hv' => hv (hs.alone v w e i j q _ hv' hw)⟩
  | crash w =>
    cases h
    exact hs.setWorker w _ (by rintro e j p ⟨⟩)

end Alexandria.Maintenance
