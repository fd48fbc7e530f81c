import SphSc.Futures.Model
import SphSc.ThreadPool.Delivery
/-!
# What a future delivers

The pool executes a future's task at most once, so one worker at most goes
through `sph_future_eval` for it. A future's data is its argument until that
worker stores the result, and `finished` is set after that.
-/
open Runs

namespace SphSc.Futures

variable {F D : Type} {s s' : State F D} {action : Action F D} {n : Nat}

/-! ## Steps of the pool -/

/-- What a step has the pool do. -/
def poolAction (s : State F D) : Action F D → Option ThreadPool.Action
  | .create success => some (.create success)
  | .proceed => some .proceed
  | .deinit => if s.initialized then some (.resize 0 false false) else none
  | .enqueue id => some (.enqueue (some (.user id)))
  | .signal target => some (.signal target)
  | .work w => some (.work w)
  | .complete w => some (.complete w)
  | .wakeUp w => some (.wakeUp w)
  | _ => none

theorem poolStep_eq {pa : ThreadPool.Action} (h : s.poolStep pa = some s') :
    ∃ p, ThreadPool.step s.pool pa = some p ∧ s' = { s with pool := p } := by
  obtain ⟨p, hp, rfl⟩ := Option.map_eq_some_iff.1 h
  exact ⟨p, hp, rfl⟩

/-! ## Stages of a future -/

/-- How far the evaluation of a future has got. -/
inductive Stage (D : Type) where
  | fresh
  | applying
  | stored (r : D)
  | finished (r : D)

/-- The object and the record of a future made with `f` and `d`. -/
def Stage.Holds (f : F) (d : D) (o : Future F D) (r : Record F D) : Stage D → Prop
  | .fresh => o = ⟨false, f, d⟩ ∧ r.applied = [] ∧ r.results = []
  | .applying => o = ⟨false, f, d⟩ ∧ r.applied = [(f, d)] ∧ r.results = []
  | .stored v => o = ⟨false, f, v⟩ ∧ r.applied = [(f, d)] ∧ r.results = [v]
  | .finished v => o = ⟨true, f, v⟩ ∧ r.applied = [(f, d)] ∧ r.results = [v]

/-- What `sph_future_touch` returned does not matter. -/
theorem Stage.Holds.of_same {f : F} {d : D} {o : Future F D} {r r' : Record F D} {stage : Stage D}
    (h : stage.Holds f d o r) (happlied : r'.applied = r.applied) (hresults : r'.results = r.results) :
    stage.Holds f d o r' := by
  cases stage <;> simpa only [Stage.Holds, happlied, hresults] using h

/-- The stages at which a worker is at a place of `sph_future_eval`. -/
inductive Eval.At : Eval → Stage D → Prop
  | entered : At .entered .fresh
  | applying : At .applying .applying
  | stored (v : D) : At .stored (.stored v)
  | published (v : D) : At .published (.finished v)

/-- What holds of the future `id`. -/
structure FutureAt (s : State F D) (id : Nat) : Prop where
  /-- A future that is still to be made is in no one's hands. -/
  unmade : (s.record id).new = none → id ∉ s.preparing ∧ .user id ∉ s.pool.log.accepted ∧
    id ∉ s.pool.log.refused ∧ id ∉ s.reading ∧ s.record id = ⟨none, [], [], []⟩
  unqueued : id ∈ s.preparing → .user id ∉ s.pool.log.accepted ∧ id ∉ s.pool.log.refused
  waiting : ∀ f d, (s.record id).new = some (f, d) → .user id ∉ s.pool.log.dequeued →
    Stage.Holds f d (s.objects id) (s.record id) .fresh
  running : ∀ w f d, (s.record id).new = some (f, d) → s.pool.workers[w]? = some (.running (.user id)) →
    ∃ stage, (s.evals w).At stage ∧ stage.Holds f d (s.objects id) (s.record id)
  completed : ∀ f d, (s.record id).new = some (f, d) → id ∈ s.pool.log.completed →
    ∃ v, Stage.Holds f d (s.objects id) (s.record id) (.finished v)
  reading : id ∈ s.reading → (s.objects id).finished = true
  touched : ∀ v ∈ (s.record id).touched, (s.objects id).finished = true ∧ (s.objects id).data = v

structure FutureInv (s : State F D) : Prop where
  each : ∀ id, FutureAt s id
  distinct : s.preparing.Nodup

theorem futureInv_start (limit junk : Nat) (objects : Nat → Future F D) : FutureInv (start limit n junk objects) where
  each id := by constructor <;> simp [start, ThreadPool.start]
  distinct := List.nodup_nil

/-- A step that is not about this future. -/
theorem FutureAt.of_same {id : Nat} (h : FutureAt s id) (hobj : s'.objects id = s.objects id)
    (hrec : s'.record id = s.record id) (hprep : id ∈ s'.preparing → id ∈ s.preparing)
    (hread : id ∈ s'.reading → id ∈ s.reading)
    (hacc : .user id ∈ s'.pool.log.accepted → .user id ∈ s.pool.log.accepted)
    (href : id ∈ s'.pool.log.refused → id ∈ s.pool.log.refused)
    (hdeq : .user id ∈ s.pool.log.dequeued → .user id ∈ s'.pool.log.dequeued)
    (hcomp : id ∈ s'.pool.log.completed → id ∈ s.pool.log.completed)
    (hrun : ∀ w : Nat, s'.pool.workers[w]? = some (.running (.user id)) →
      s.pool.workers[w]? = some (.running (.user id)) ∧ s'.evals w = s.evals w) : FutureAt s' id where
  unmade hnone := by
    rw [hrec] at hnone ⊢
    obtain ⟨h₁, h₂, h₃, h₄, h₅⟩ := h.unmade hnone
    exact ⟨fun hm => h₁ (hprep hm), fun hm => h₂ (hacc hm), fun hm => h₃ (href hm), fun hm => h₄ (hread hm), h₅⟩
  unqueued hm := ⟨fun hm' => (h.unqueued (hprep hm)).1 (hacc hm'), fun hm' => (h.unqueued (hprep hm)).2 (href hm')⟩
  waiting f d hnew hwait := by
    rw [hrec] at hnew ⊢
    rw [hobj]
    exact h.waiting f d hnew fun hm => hwait (hdeq hm)
  running w f d hnew hw := by
    obtain ⟨hw, hev⟩ := hrun w hw
    rw [hrec] at hnew ⊢
    rw [hobj, hev]
    exact h.running w f d hnew hw
  completed f d hnew hdone := by
    rw [hrec] at hnew ⊢
    rw [hobj]
    exact h.completed f d hnew (hcomp hdone)
  reading hm := by rw [hobj]; exact h.reading (hread hm)
  touched := by rw [hobj, hrec]; exact h.touched

/-- The pool moves no task. -/
theorem FutureInv.of_quiet (hi : FutureInv s) (hobj : s'.objects = s.objects) (hev : s'.evals = s.evals)
    (hprep : s'.preparing = s.preparing) (hread : s'.reading = s.reading) (hrec : s'.record = s.record)
    (hlog : s'.pool.log = s.pool.log)
    (hrun : ∀ (w : Nat) (t : ThreadPool.Task), s'.pool.workers[w]? = some (.running t) →
      s.pool.workers[w]? = some (.running t)) : FutureInv s' where
  each id := by
    refine (hi.each id).of_same (by rw [hobj]) (by rw [hrec]) (by rw [hprep]; exact (·)) (by rw [hread]; exact (·)) ?_ ?_
      ?_ ?_ fun w hw => ⟨hrun w _ hw, by rw [hev]⟩
    all_goals rw [hlog]; exact (·)
  distinct := by rw [hprep]; exact hi.distinct

/-- A future whose task has been accepted was made. -/
theorem FutureInv.made (hi : FutureInv s) {id : Nat} (hacc : .user id ∈ s.pool.log.accepted) :
    ∃ f d, (s.record id).new = some (f, d) := by
  cases hnew : (s.record id).new with
  | none => exact absurd hacc ((hi.each id).unmade hnew).2.1
  | some args => exact ⟨args.1, args.2, rfl⟩

/-! ## In `sph_future_eval` -/

section
variable {limit junk : Nat} {bs : List ThreadPool.Action} (hn : 1 ≤ n)
  (hp : Run ThreadPool.step ThreadPool.Served (ThreadPool.start limit n junk) bs s.pool)
include hn hp

theorem dequeued_of_running {w id : Nat} (hw : s.pool.workers[w]? = some (.running (.user id))) :
    .user id ∈ s.pool.log.dequeued :=
  (ThreadPool.dequeued_iff hn hp id).2 (.inl (ThreadPool.mem_of_worker hw))

/-- A worker goes on in `sph_future_eval`, to the next stage of its future. -/
theorem FutureInv.of_eval (hi : FutureInv s) {w id : Nat} {f : F} {d : D}
    (hw : s.pool.workers[w]? = some (.running (.user id))) (hunfinished : (s.objects id).finished = false)
    (hpool : s'.pool = s.pool) (hprep : s'.preparing = s.preparing) (hread : s'.reading = s.reading)
    (hobj : ∀ id', id' ≠ id → s'.objects id' = s.objects id') (hrec : ∀ id', id' ≠ id → s'.record id' = s.record id')
    (hev : ∀ w', w' ≠ w → s'.evals w' = s.evals w') (hnew : (s'.record id).new = some (f, d))
    (htouched : (s'.record id).touched = (s.record id).touched)
    (hstage : ∃ stage, (s'.evals w).At stage ∧ stage.Holds f d (s'.objects id) (s'.record id)) : FutureInv s' where
  each id' := by
    by_cases hid : id' = id
    · subst hid
      have hargs : ∀ {f' d'}, (s'.record id').new = some (f', d') → f = f' ∧ d = d' := by
        intro f' d' hnew'
        simpa [hnew] using hnew'
      constructor
      case unmade => simp [hnew]
      case unqueued => rw [hprep, hpool]; exact (hi.each id').unqueued
      case waiting =>
        intro f' d' _ hwait
        rw [hpool] at hwait
        exact absurd (dequeued_of_running hn hp hw) hwait
      case running =>
        -- no other worker is at this future
        intro w' f' d' hnew' hw'
        rw [hpool] at hw'
        obtain rfl := ThreadPool.running_unique hn hp hw hw'
        obtain ⟨rfl, rfl⟩ := hargs hnew'
        exact hstage
      case completed =>
        intro f' d' _ hdone
        rw [hpool] at hdone
        exact absurd hdone (ThreadPool.not_completed hn hp hw)
      case reading =>
        intro hm
        rw [hread] at hm
        simp [(hi.each id').reading hm] at hunfinished
      case touched =>
        intro v hv
        rw [htouched] at hv
        simp [((hi.each id').touched v hv).1] at hunfinished
    · refine (hi.each id').of_same (hobj id' hid) (hrec id' hid) (by rw [hprep]; exact (·)) (by rw [hread]; exact (·))
        (by rw [hpool]; exact (·)) (by rw [hpool]; exact (·)) (by rw [hpool]; exact (·)) (by rw [hpool]; exact (·)) ?_
      intro w' hw'
      rw [hpool] at hw'
      refine ⟨hw', hev w' ?_⟩
      rintro rfl
      rw [hw] at hw'
      simp at hw'
      exact hid hw'.symm
  distinct := by rw [hprep]; exact hi.distinct

/-- What a worker in `sph_future_eval` finds. -/
theorem FutureInv.at_eval (hi : FutureInv s) {w id : Nat} (hw : s.evaluated w = some id) :
    s.pool.workers[w]? = some (.running (.user id)) ∧ ∃ f d, (s.record id).new = some (f, d) ∧
      ∃ stage, (s.evals w).At stage ∧ stage.Holds f d (s.objects id) (s.record id) := by
  have hrunning : s.pool.workers[w]? = some (.running (.user id)) := by
    unfold State.evaluated at hw
    split at hw
    · simp_all
    · simp at hw
  obtain ⟨f, d, hnew⟩ := hi.made (ThreadPool.accepted_of_dequeued hn hp (dequeued_of_running hn hp hrunning))
  exact ⟨hrunning, f, d, hnew, (hi.each id).running w f d hnew hrunning⟩

theorem futureInv_apply (hi : FutureInv s) {w : Nat} (h : s.apply w = some s') : FutureInv s' := by
  unfold State.apply at h
  split at h
  · rename_i id hw he
    cases h
    obtain ⟨hrunning, f, d, hnew, stage, hat, hholds⟩ := hi.at_eval hn hp hw
    rw [he] at hat
    cases hat
    obtain ⟨ho, happlied, hresults⟩ := hholds
    refine hi.of_eval hn hp (f := f) (d := d) hrunning (by rw [ho]) rfl rfl rfl (fun _ _ => rfl)
      (fun id' h' => Function.update_of_ne h' _ _) (fun w' h' => Function.update_of_ne h' _ _)
      (by simpa [State.setRecord] using hnew) (by simp [State.setRecord, State.setEval]) ⟨.applying, ?_, ?_⟩
    · simpa [State.setRecord, State.setEval] using Eval.At.applying
    · simp [State.setRecord, State.setEval, Stage.Holds, ho, happlied, hresults]
  · cases h

theorem futureInv_store (hi : FutureInv s) {w : Nat} {v : D} (h : s.store w v = some s') : FutureInv s' := by
  unfold State.store at h
  split at h
  · rename_i id hw he
    cases h
    obtain ⟨hrunning, f, d, hnew, stage, hat, hholds⟩ := hi.at_eval hn hp hw
    rw [he] at hat
    cases hat
    obtain ⟨ho, happlied, hresults⟩ := hholds
    refine hi.of_eval hn hp (f := f) (d := d) hrunning (by rw [ho]) rfl rfl rfl
      (fun id' h' => Function.update_of_ne h' _ _) (fun id' h' => Function.update_of_ne h' _ _)
      (fun w' h' => Function.update_of_ne h' _ _) (by simpa [State.setRecord] using hnew)
      (by simp [State.setRecord, State.setEval, State.setObject]) ⟨.stored v, ?_, ?_⟩
    · simpa [State.setRecord, State.setEval, State.setObject] using Eval.At.stored v
    · simp [State.setRecord, State.setEval, State.setObject, Stage.Holds, ho, happlied, hresults]
  · cases h

theorem futureInv_publish (hi : FutureInv s) {w : Nat} (h : s.publish w = some s') : FutureInv s' := by
  unfold State.publish at h
  split at h
  · rename_i id hw he
    cases h
    obtain ⟨hrunning, f, d, hnew, stage, hat, hholds⟩ := hi.at_eval hn hp hw
    rw [he] at hat
    cases hat
    rename_i v
    obtain ⟨ho, happlied, hresults⟩ := hholds
    refine hi.of_eval hn hp (f := f) (d := d) hrunning (by rw [ho]) rfl rfl rfl
      (fun id' h' => Function.update_of_ne h' _ _) (fun _ _ => rfl) (fun w' h' => Function.update_of_ne h' _ _)
      hnew rfl ⟨.finished v, ?_, ?_⟩
    · simpa [State.setEval, State.setObject] using Eval.At.published v
    · simp [State.setEval, State.setObject, Stage.Holds, ho, happlied, hresults]
  · cases h

/-- A worker takes a task: it is about to evaluate a future that was waiting. -/
theorem futureInv_work (hi : FutureInv s) {w : Nat} (h : s.work w = some s') : FutureInv s' := by
  obtain ⟨s₁, hs₁, rfl⟩ := Option.map_eq_some_iff.1 h
  obtain ⟨p, hstep, rfl⟩ := poolStep_eq hs₁
  refine ⟨fun id => ?_, hi.distinct⟩
  cases ThreadPool.step_cases hstep with
  | block hw | exit hw =>
    refine (hi.each id).of_same rfl rfl (·) (·) (·) (·) (·) (·) ?_
    intro w' hw'
    have hold := ThreadPool.running_of_set (by simp) hw'
    refine ⟨hold, Function.update_of_ne ?_ _ _⟩
    rintro rfl
    simp [hw] at hold
  | @take _ t queue hw h0 hq =>
    have hlt := (List.getElem?_eq_some_iff.1 hw).1
    have hset : ∀ w', (s.pool.workers.set w (.running t))[w']? = some (.running (.user id)) →
        w' = w ∧ t = .user id ∨ w' ≠ w ∧ s.pool.workers[w']? = some (.running (.user id)) := by
      intro w' hw'
      by_cases hne : w' = w
      · subst hne
        rw [List.getElem?_set_self hlt] at hw'
        simp at hw'
        exact .inl ⟨rfl, hw'⟩
      · rw [List.getElem?_set_ne (Ne.symm hne)] at hw'
        exact .inr ⟨hne, hw'⟩
    refine { hi.each id with
      waiting := fun f d hnew hwait => (hi.each id).waiting f d hnew fun hd => hwait (List.mem_append_left _ hd)
      running := fun w' f d hnew hw' => ?_ }
    rcases hset w' hw' with ⟨rfl, rfl⟩ | ⟨hne, hw'⟩
    · have hwaiting := ThreadPool.head_not_dequeued hn hp hq
      exact ⟨.fresh, by simpa [State.setEval] using Eval.At.entered, (hi.each id).waiting f d hnew hwaiting⟩
    · obtain ⟨stage, hat, hholds⟩ := (hi.each id).running w' f d hnew hw'
      have hev : Function.update s.evals w .entered w' = s.evals w' := Function.update_of_ne hne ..
      rw [← hev] at hat
      exact ⟨stage, hat, hholds⟩

theorem futureInv_complete (hi : FutureInv s) {w : Nat} (h : s.complete w = some s') : FutureInv s' := by
  unfold State.complete at h
  split at h
  · rename_i he
    obtain ⟨p, hstep, rfl⟩ := poolStep_eq h
    refine ⟨fun id => ?_, hi.distinct⟩
    cases ThreadPool.step_cases hstep with
    | threadFinish hw => exact absurd (ThreadPool.mem_of_worker hw) (ThreadPool.servedInv_run hn hp).returning.2
    | @complete _ id' hw =>
      refine { hi.each id with
        running := fun w' f d hnew hw' =>
          (hi.each id).running w' f d hnew (ThreadPool.running_of_set (by simp) hw')
        completed := fun f d hnew hdone => ?_ }
      rcases List.mem_append.1 hdone with hdone | hdone
      · exact (hi.each id).completed f d hnew hdone
      · obtain rfl := List.mem_singleton.1 hdone
        obtain ⟨stage, hat, hholds⟩ := (hi.each id).running w f d hnew hw
        rw [he] at hat
        cases hat
        exact ⟨_, hholds⟩
  · cases h

/-! ## In `sph_future_new` and `sph_future_touch` -/

/-- An object is prepared that is in no one's hands. -/
theorem futureInv_prepare (hi : FutureInv s) {id : Nat} {f : F} {d : D} (hnew : (s.record id).new = none) :
    FutureInv (s.prepare id f d) := by
  obtain ⟨hprep, hacc, href, hread, hrecord⟩ := (hi.each id).unmade hnew
  have hwaiting : .user id ∉ s.pool.log.dequeued := fun h => hacc (ThreadPool.accepted_of_dequeued hn hp h)
  refine ⟨fun id' => ?_, ?_⟩
  · by_cases hid : id' = id
    · subst hid
      have hobj : (s.prepare id' f d).objects id' = ⟨false, f, d⟩ := Function.update_self ..
      have hself : (s.prepare id' f d).record id' = ⟨some (f, d), [], [], []⟩ := by
        simp [State.prepare, State.setRecord, hrecord]
      constructor
      case unmade => simp [hself]
      case unqueued => exact fun _ => ⟨hacc, href⟩
      case waiting =>
        intro f' d' hnew' _
        rw [hself] at hnew' ⊢
        obtain ⟨rfl, rfl⟩ : f = f' ∧ d = d' := by simpa using hnew'
        exact ⟨hobj, rfl, rfl⟩
      case running => exact fun w f' d' _ hw => absurd (dequeued_of_running hn hp hw) hwaiting
      case completed => exact fun f' d' _ hdone => absurd ((ThreadPool.dequeued_iff hn hp id').2 (.inr hdone)) hwaiting
      case reading => exact fun hm => absurd hm hread
      case touched => simp [hself]
    · exact (hi.each id').of_same (Function.update_of_ne hid ..) (Function.update_of_ne hid ..)
        (fun hm => by simpa [State.prepare, hid] using hm) (·) (·) (·) (·) (·) fun w hw => ⟨hw, rfl⟩
  · refine List.nodup_append.2 ⟨hi.distinct, List.nodup_singleton _, fun x hx y hy hxy => hprep ?_⟩
    obtain rfl := List.mem_singleton.1 hy
    exact hxy ▸ hx

end

theorem futureInv_enqueue (hi : FutureInv s) {id : Nat} (h : s.enqueue id = some s') : FutureInv s' := by
  unfold State.enqueue at h
  split at h
  · rename_i hid
    obtain ⟨s₁, hs₁, rfl⟩ := Option.map_eq_some_iff.1 h
    obtain ⟨p, hstep, rfl⟩ := poolStep_eq hs₁
    refine ⟨fun id' => ?_, hi.distinct.erase id⟩
    by_cases hne : id' = id
    · subst hne
      have hmade : (s.record id').new ≠ none := fun hnone => ((hi.each id').unmade hnone).1 hid
      have hleft : id' ∉ s.preparing.erase id' := List.Nodup.not_mem_erase hi.distinct
      cases ThreadPool.step_cases hstep with
      | refused | accepted =>
        exact { hi.each id' with unmade := fun hnone => absurd hnone hmade, unqueued := fun hm => absurd hm hleft }
    · cases ThreadPool.step_cases hstep with
      | refused hu hacc =>
        exact (hi.each id').of_same rfl rfl List.mem_of_mem_erase (·) (·) (fun hm => by simpa [hne] using hm) (·) (·)
          fun w hw => ⟨hw, rfl⟩
      | accepted hu hacc =>
        exact (hi.each id').of_same rfl rfl List.mem_of_mem_erase (·) (fun hm => by simpa [hne] using hm) (·) (·) (·)
          fun w hw => ⟨hw, rfl⟩
  · cases h

theorem futureInv_poll (hi : FutureInv s) {id : Nat} (hnew : (s.record id).new ≠ none) : FutureInv (s.poll id) := by
  unfold State.poll
  split
  · rename_i hfinished
    refine ⟨fun id' => ?_, hi.distinct⟩
    by_cases hne : id' = id
    · subst hne
      exact { hi.each id' with unmade := fun hnone => absurd hnone hnew, reading := fun _ => hfinished }
    · exact (hi.each id').of_same rfl rfl (·) (fun hm => by simpa [hne] using hm) (·) (·) (·) (·) fun w hw => ⟨hw, rfl⟩
  · exact hi

theorem futureInv_read (hi : FutureInv s) {id : Nat} (h : s.read id = some s') : FutureInv s' := by
  unfold State.read at h
  split at h
  · rename_i hid
    cases h
    refine ⟨fun id' => ?_, hi.distinct⟩
    by_cases hne : id' = id
    · subst hne
      have hfinished := (hi.each id').reading hid
      have hmade : (s.record id').new ≠ none := fun hnone => ((hi.each id').unmade hnone).2.2.2.1 hid
      -- the record gains the value read, and what was made and evaluated stays
      generalize hr : { s.record id' with touched := (s.record id').touched ++ [(s.objects id').data] } = r
      have hself : (s.setRecord id' r).record id' = r := Function.update_self ..
      have hnew : r.new = (s.record id').new := by rw [← hr]
      have happlied : r.applied = (s.record id').applied := by rw [← hr]
      have hresults : r.results = (s.record id').results := by rw [← hr]
      constructor
      case unmade =>
        intro hnone
        rw [hself, hnew] at hnone
        exact absurd hnone hmade
      case unqueued => exact (hi.each id').unqueued
      case waiting =>
        intro f d hmade' hwait
        rw [hself, hnew] at hmade'
        rw [hself]
        exact ((hi.each id').waiting f d hmade' hwait).of_same happlied hresults
      case running =>
        intro w f d hmade' hw
        rw [hself, hnew] at hmade'
        rw [hself]
        obtain ⟨stage, hat, hholds⟩ := (hi.each id').running w f d hmade' hw
        exact ⟨stage, hat, hholds.of_same happlied hresults⟩
      case completed =>
        intro f d hmade' hdone
        rw [hself, hnew] at hmade'
        rw [hself]
        obtain ⟨v, hholds⟩ := (hi.each id').completed f d hmade' hdone
        exact ⟨v, hholds.of_same happlied hresults⟩
      case reading => exact fun _ => hfinished
      case touched =>
        intro v hv
        rw [hself, ← hr] at hv
        rcases List.mem_append.1 hv with hv | hv
        · exact (hi.each id').touched v hv
        · obtain rfl := List.mem_singleton.1 hv
          exact ⟨hfinished, rfl⟩
    · exact (hi.each id').of_same rfl (Function.update_of_ne hne ..) (·) List.mem_of_mem_erase (·) (·) (·) (·)
        fun w hw => ⟨hw, rfl⟩
  · cases h

/-! ## Runs -/

/-- Steps of runs in which the threads are created, each object is made once and
no future is touched before it is made. -/
def Used (s : State F D) : Action F D → Prop
  | .create success => success = true
  | .prepare id _ _ => (s.record id).new = none
  | .poll id => (s.record id).new ≠ none
  | _ => True

/-- What the pool does in a step, if anything. -/
theorem step_pool (h : step s action = some s') :
    match poolAction s action with
    | some pa => ThreadPool.step s.pool pa = some s'.pool
    | none => s'.pool = s.pool := by
  cases action with
  | create success | proceed | signal target | wakeUp w =>
    obtain ⟨p, hp, rfl⟩ := poolStep_eq h
    exact hp
  | work w =>
    obtain ⟨s₁, hs₁, rfl⟩ := Option.map_eq_some_iff.1 h
    obtain ⟨p, hp, rfl⟩ := poolStep_eq hs₁
    exact hp
  | complete w =>
    simp only [step, State.complete] at h
    split at h
    · obtain ⟨p, hp, rfl⟩ := poolStep_eq h
      exact hp
    · cases h
  | enqueue id =>
    simp only [step, State.enqueue] at h
    split at h
    · obtain ⟨s₁, hs₁, rfl⟩ := Option.map_eq_some_iff.1 h
      obtain ⟨p, hp, rfl⟩ := poolStep_eq hs₁
      exact hp
    · cases h
  | deinit =>
    simp only [step, State.deinit] at h
    simp only [poolAction]
    split at h
    · split at h <;> rename_i hinit
      · obtain ⟨s₁, hs₁, rfl⟩ := Option.map_eq_some_iff.1 h
        obtain ⟨p, hp, rfl⟩ := poolStep_eq hs₁
        rw [if_pos hinit]
        exact hp
      · rw [if_neg hinit]
        exact congrArg State.pool (Option.some.inj h).symm
    · cases h
  | init | initReturns | deinitReturns | read _ | apply _ | store _ _ | publish _ =>
    simp only [step, State.init, State.initReturns, State.deinitReturns, State.read, State.apply, State.store,
      State.publish] at h
    split at h
    · cases h; rfl
    · cases h
  | prepare id f d => cases h; rfl
  | poll id =>
    cases h
    simp only [poolAction, State.poll]
    split <;> rfl

/-- A task is enqueued once. -/
theorem served_of_used (hi : FutureInv s) (hok : Used s action) (h : step s action = some s') {pa : ThreadPool.Action}
    (hpa : poolAction s action = some pa) : ThreadPool.Served s.pool pa := by
  cases action with
  | create success =>
    cases hpa
    exact hok
  | deinit =>
    simp only [poolAction] at hpa
    split at hpa
    · cases hpa
      exact ⟨rfl, rfl, rfl⟩
    · cases hpa
  | enqueue id =>
    cases hpa
    rintro t ⟨⟩
    simp only [step, State.enqueue] at h
    split at h
    · rename_i hid
      exact ⟨id, rfl, (hi.each id).unqueued hid⟩
    · cases h
  | proceed | signal _ | work _ | complete _ | wakeUp _ =>
    cases hpa
    trivial
  | init | initReturns | deinitReturns | prepare _ _ _ | poll _ | read _ | apply _ | store _ _ | publish _ => cases hpa

section
variable {limit junk : Nat} {bs : List ThreadPool.Action} (hn : 1 ≤ n)
include hn

theorem futureInv_step (hp : Run ThreadPool.step ThreadPool.Served (ThreadPool.start limit n junk) bs s.pool)
    (hi : FutureInv s) (hok : Used s action) (h : step s action = some s') : FutureInv s' := by
  have hserved := ThreadPool.servedInv_run hn hp
  cases action with
  | create success | proceed | signal target | wakeUp w =>
    obtain ⟨p, hstep, rfl⟩ := poolStep_eq h
    obtain ⟨hlog, hrun⟩ := ThreadPool.quiet_step hserved (ThreadPool.step_cases hstep) (by simp) (by simp) (by simp)
    exact hi.of_quiet rfl rfl rfl rfl rfl hlog hrun
  | deinit =>
    simp only [step, State.deinit] at h
    split at h
    · split at h
      · obtain ⟨s₁, hs₁, rfl⟩ := Option.map_eq_some_iff.1 h
        obtain ⟨p, hstep, rfl⟩ := poolStep_eq hs₁
        obtain ⟨hlog, hrun⟩ := ThreadPool.quiet_step hserved (ThreadPool.step_cases hstep) (by simp) (by simp) (by simp)
        exact hi.of_quiet rfl rfl rfl rfl rfl hlog hrun
      · cases h
        exact hi
    · cases h
  | init | initReturns | deinitReturns =>
    simp only [step, State.init, State.initReturns, State.deinitReturns] at h
    split at h
    · cases h
      exact hi.of_quiet rfl rfl rfl rfl rfl rfl fun _ _ => id
    · cases h
  | prepare id f d =>
    cases h
    exact futureInv_prepare hn hp hi hok
  | poll id =>
    cases h
    exact futureInv_poll hi hok
  | enqueue id => exact futureInv_enqueue hi h
  | read id => exact futureInv_read hi h
  | work w => exact futureInv_work hn hp hi h
  | apply w => exact futureInv_apply hn hp hi h
  | store w v => exact futureInv_store hn hp hi h
  | publish w => exact futureInv_publish hn hp hi h
  | complete w => exact futureInv_complete hn hp hi h

/-- What holds of the futures rests on what holds of the pool, and the pool is
served as it should be because of what holds of the futures. -/
theorem futureInv_run {objects : Nat → Future F D} {as : List (Action F D)}
    (h : Run step Used (start limit n junk objects) as s) :
    FutureInv s ∧ ∃ bs, Run ThreadPool.step ThreadPool.Served (ThreadPool.start limit n junk) bs s.pool := by
  refine h.inv (I := fun s => FutureInv s ∧
    ∃ bs, Run ThreadPool.step ThreadPool.Served (ThreadPool.start limit n junk) bs s.pool)
    ⟨futureInv_start limit junk objects, [], .nil⟩ ?_
  rintro s action s' ⟨hi, bs, hp⟩ hok hs
  refine ⟨futureInv_step hn hp hi hok hs, ?_⟩
  have hpool := step_pool hs
  split at hpool
  · rename_i pa hpa
    exact ⟨bs ++ [pa], hp.snoc (served_of_used hi hok hs hpa) hpool⟩
  · exact ⟨bs, hpool ▸ hp⟩

end

/-! ## What `sph_future_touch` returns -/

section
variable {limit junk : Nat} {bs : List ThreadPool.Action} (hn : 1 ≤ n)
  (hp : Run ThreadPool.step ThreadPool.Served (ThreadPool.start limit n junk) bs s.pool)
include hn hp

/-- Every future that was made is at some stage. -/
theorem FutureInv.stage (hi : FutureInv s) {id : Nat} {f : F} {d : D} (hnew : (s.record id).new = some (f, d)) :
    ∃ stage : Stage D, stage.Holds f d (s.objects id) (s.record id) := by
  by_cases hdeq : .user id ∈ s.pool.log.dequeued
  · rcases (ThreadPool.dequeued_iff hn hp id).1 hdeq with hrunning | hdone
    · obtain ⟨w, hw⟩ := List.mem_iff_getElem?.1 hrunning
      obtain ⟨stage, -, hholds⟩ := (hi.each id).running w f d hnew hw
      exact ⟨stage, hholds⟩
    · obtain ⟨v, hholds⟩ := (hi.each id).completed f d hnew hdone
      exact ⟨_, hholds⟩
  · exact ⟨_, (hi.each id).waiting f d hnew hdeq⟩

theorem FutureInv.applied_le_one (hi : FutureInv s) (id : Nat) : (s.record id).applied.length ≤ 1 := by
  cases hnew : (s.record id).new with
  | none => simp [((hi.each id).unmade hnew).2.2.2.2]
  | some args =>
    obtain ⟨stage, hholds⟩ := hi.stage hn hp (f := args.1) (d := args.2) hnew
    cases stage <;> simp [hholds.2.1]

theorem FutureInv.touched_eq (hi : FutureInv s) {id : Nat} {v : D} (hv : v ∈ (s.record id).touched) :
    ∃ f d, (s.record id).new = some (f, d) ∧ (s.record id).applied = [(f, d)] ∧ (s.record id).results = [v] := by
  cases hnew : (s.record id).new with
  | none => simp [((hi.each id).unmade hnew).2.2.2.2] at hv
  | some args =>
    obtain ⟨hfinished, hdata⟩ := (hi.each id).touched v hv
    obtain ⟨stage, hholds⟩ := hi.stage hn hp (f := args.1) (d := args.2) hnew
    refine ⟨args.1, args.2, rfl, ?_⟩
    cases stage with
    | finished v' =>
      obtain ⟨ho, happlied, hresults⟩ := hholds
      rw [ho] at hdata
      exact ⟨happlied, hresults.trans (congrArg (fun x => [x]) hdata)⟩
    | fresh | applying | stored v' => simp [hholds.1] at hfinished

end

end SphSc.Futures
