import RustlyCore.Exceptions
import RustlyCore.Session

/-!
# Calls come to an end

In no state that threads can reach is a call stuck. The thread that holds the GVL is never one that
validates without it, so the GVL can be given back, and then the call can take it and end.
-/

namespace RustlyCore

open Bounded (settled)
open Relation (ReflTransGen)

variable {x : Externals}

/-! ## The end of a call -/

/-- After a validation a call ends with a reply or an exception. -/
theorem Request.survives_outcome (h : Heap) {compiled : CompiledSchema} {input : PreparedInput}
    {options : ValidationOptions} {result : ValidationResult} (request : Request)
    (hresult : validateNoGvl x compiled.ir input options = .ok result) :
    Survives (outcome h (request.finish x h compiled options result)).1 := by
  have hbuild (klass : String) :
      Survives (outcome h (materialize x h compiled options klass result)).1 := by
    obtain ⟨result', hok, hvalidated⟩ := validateNoGvl_ok (x := x) compiled.ir input options
    cases hresult.symm.trans hok
    rcases validatePreparedInput_cases (x := x) compiled.ir input options with
      ⟨w, hw⟩ | ⟨result', hresult', hissues⟩
    · cases hvalidated.symm.trans hw
      have hsafe := materializeInstance_safe (x := x) (U := False) klass attrIvarName w
        compiled.plan options.freeze options.storeAttributes
      have hrefines := Objects.materializeInstance_refines (x := x) klass attrIvarName w
        compiled.plan options.freeze options.storeAttributes h
      rw [materialize]
      cases htree : materializeInstance x klass attrIvarName w compiled.plan options.freeze
        options.storeAttributes with
      | ok r =>
        rw [htree] at hrefines
        obtain ⟨v, h', hrun, -⟩ := hrefines
        simp only [List.isEmpty_nil, Bool.not_true, Bool.false_eq_true, if_false, hrun]
        exact .inl ⟨_, rfl⟩
      | error stop =>
        rw [htree] at hrefines hsafe
        change (Objects.materializeInstance x klass attrIvarName w compiled.plan options.freeze
          options.storeAttributes).run h = .error stop at hrefines
        simp only [List.isEmpty_nil, Bool.not_true, Bool.false_eq_true, if_false, hrefines]
        cases stop with
        | error error => exact .inr ⟨_, rfl⟩
        | raised exception => exact .inr ⟨_, rfl⟩
        | panicked | undefined => cases hsafe
    · cases hvalidated.symm.trans hresult'
      rw [materialize, if_pos (by simpa using hissues)]
      exact .inr ⟨_, rfl⟩
  cases request with
  | validate => exact .inl ⟨_, rfl⟩
  | build _ _ klass | buildSynced _ _ klass => exact hbuild klass

namespace Session

variable {s s' : Session} {t : ThreadId} {heap : Heap}

/-! ## Who holds the GVL -/

/-- The thread that holds the GVL runs Ruby code or keeps it in its call. -/
def Held (s : Session) : Prop :=
  ∀ t, s.gvl = some t → (s.threads t).phase = .idle ∨ (s.threads t).phase.locked = true

theorem Held.setThread (hheld : s.Held) {thread : Thread} {gvl : Option ThreadId} {heap : Heap}
    {ended : List Ended} (hgvl : ∀ t', gvl = some t' → t' ≠ t → s.gvl = some t')
    (hthread : gvl = some t → thread.phase = .idle ∨ thread.phase.locked = true) :
    Held { s.setThread t thread with gvl, heap, ended } := by
  intro t' hmine
  by_cases hne : t' = t
  · subst hne
    change ((s.setThread t' thread).threads t').phase = _ ∨ _
    rw [threads_setThread]
    exact hthread hmine
  · change ((s.setThread t thread).threads t').phase = _ ∨ _
    rw [threads_setThread_of_ne hne]
    exact hheld t' (hgvl t' hmine hne)

theorem Step.held (hstep : Step x s s') (hrelies : ∀ t, s.Relies t (s.threads t))
    (hheld : s.Held) : s'.Held := by
  cases hstep with
  | acquire t hgvl hidle =>
    intro t' hmine
    cases Option.some.inj hmine
    exact .inl hidle
  | release =>
    intro t hmine
    cases hmine
  | ruby | compile | allocate => exact hheld
  | begin t request object options input hruns =>
    exact hheld.setThread (fun _ hmine _ => hmine) fun _ => .inr rfl
  | early t request object reply hruns =>
    exact hheld.setThread (fun _ hmine _ => hmine) fun _ => .inl rfl
  | finish => exact hheld.setThread (fun _ hmine _ => hmine) fun _ => .inl rfl
  | interrupt t began options result previous _ _ hgvl =>
    refine hheld.setThread (fun t' hmine hne => ?_) fun _ => .inl rfl
    exact absurd (Option.some.inj hmine).symm hne
  | leave t began options result previous hphase hfree =>
    refine hheld.setThread (fun t' hmine hne => ?_) fun _ => .inr rfl
    split at hmine
    · exact hmine
    · exact absurd (Option.some.inj hmine).symm hne
  | enter t began options input hphase =>
    have hr := hrelies t
    rw [Relies, hphase] at hr
    refine hheld.setThread (fun t' hmine hne => ?_) fun hmine => .inr ?_
    · split at hmine
      · exact hmine
      · cases hmine
    · rw [skips, hr.1] at hmine
      cases hsynced : began.request.synced with
      | true => exact hsynced
      | false =>
        rw [hsynced] at hmine
        cases hmine
  | compute t began options input previous object result hphase =>
    refine hheld.setThread (fun _ hmine _ => hmine) fun hmine => ?_
    have hlocked := hheld t hmine
    rw [hphase] at hlocked
    rcases hlocked with hidle | hlocked
    · cases hidle
    · exact .inr hlocked

theorem Reachable.held (hs : Reachable x heap s) : s.Held := by
  induction hs with
  | refl =>
    intro t hgvl
    cases hgvl
  | tail hreach hstep ih => exact hstep.held (fun t => Reachable.relies hreach t) ih

/-! ## Runs of one thread -/

/-- Only this thread has moved. It runs Ruby code, and the call that it was in has ended. -/
structure Ends (s s' : Session) (t : ThreadId) : Prop where
  runs : s'.Runs t
  others : ∀ t', t' ≠ t → s'.threads t' = s.threads t'
  grows : s.ended <+: s'.ended
  ended : ∀ began ∈ (s.threads t).phase.began,
    ∃ e ∈ s'.ended.drop s.ended.length, e.began = began

variable (x) in
def CanEnd (s : Session) (t : ThreadId) : Prop :=
  ∃ s', ReflTransGen (Step x) s s' ∧ Ends s s' t

/-- A step inside of the call. -/
theorem CanEnd.step {s₁ : Session} (hstep : Step x s s₁) (h : CanEnd x s₁ t)
    (hothers : ∀ t', t' ≠ t → s₁.threads t' = s.threads t') (hended : s₁.ended = s.ended)
    (hbegan : (s₁.threads t).phase.began = (s.threads t).phase.began) : CanEnd x s t := by
  obtain ⟨s', hrun, hends⟩ := h
  refine ⟨s', hrun.head hstep, hends.runs, ?_, hended ▸ hends.grows, ?_⟩
  · intro t' hne
    exact (hends.others t' hne).trans (hothers t' hne)
  · rw [← hended, ← hbegan]
    exact hends.ended

theorem canEnd_idle (hidle : (s.threads t).phase = .idle) (hfree : s.gvl = none ∨ s.gvl = some t) :
    CanEnd x s t := by
  have hnone (s' : Session) : ∀ began ∈ (s.threads t).phase.began,
      ∃ e ∈ s'.ended.drop s.ended.length, e.began = began := by
    intro began hbegan
    rw [hidle] at hbegan
    cases hbegan
  rcases hfree with hgvl | hgvl
  · exact ⟨_, .single (.acquire t hgvl hidle), ⟨rfl, hidle⟩, fun _ _ => rfl, List.prefix_refl _,
      hnone _⟩
  · exact ⟨s, .refl, ⟨hgvl, hidle⟩, fun _ _ => rfl, List.prefix_refl _, hnone s⟩

theorem ends_finish (hgvl : s.gvl = some t) {began : Began}
    (hbegan : (s.threads t).phase.began = some began) (ending : Call Reply × Heap) :
    Ends s (s.finish t began ending) t := by
  refine ⟨⟨hgvl, ?_⟩, fun t' hne => threads_setThread_of_ne hne _, List.prefix_append _ _, ?_⟩
  · rw [Session.finish, threads_setThread]
  · rw [hbegan]
    rintro began' ⟨⟩
    refine ⟨⟨began, ending.1, ending.2⟩, ?_, rfl⟩
    rw [Session.finish, List.drop_left]
    exact List.mem_singleton_self _

theorem canEnd_returned (hs : Reachable x heap s) {began : Began} {options : ValidationOptions}
    {result : ValidationResult} (hphase : (s.threads t).phase = .returned began options result) :
    CanEnd x s t := by
  have hstands := hs.stands.1 t
  have hrelies := hs.relies t
  rw [hphase] at hstands
  rw [Relies, hphase] at hrelies
  obtain ⟨object, input, hobject, -, hresult⟩ := hstands
  have hstep := Step.finish t began options result object hphase hobject
    (Request.survives_outcome s.heap began.request hresult)
  exact ⟨_, .single hstep, ends_finish hrelies.2.1 (congrArg Phase.began hphase) _⟩

/-- The GVL, if the validation has released it, is free. -/
theorem canEnd_computed (hs : Reachable x heap s) {began : Began} {options : ValidationOptions}
    {result : ValidationResult} {previous : Bool}
    (hphase : (s.threads t).phase = .computed began options result previous)
    (hfree : (s.threads t).skipGvl = false → s.gvl = none) : CanEnd x s t := by
  have hstep : Step x s _ := Step.leave t began options result previous hphase hfree
  have hthread : ((s.leave t began options result previous).threads t).phase =
      .returned began options result := by
    rw [Session.leave, threads_setThread]
  refine (canEnd_returned (hs.tail hstep) hthread).step hstep ?_ rfl ?_
  · exact fun t' hne => threads_setThread_of_ne hne _
  · rw [hthread, hphase]
    rfl

theorem canEnd_computing (hs : Reachable x heap s) {began : Began} {options : ValidationOptions}
    {input : PreparedInput} {previous : Bool}
    (hphase : (s.threads t).phase = .computing began options input previous)
    (hfree : (s.threads t).skipGvl = false → s.gvl = none) : CanEnd x s t := by
  have hstands := hs.stands.1 t
  rw [hphase] at hstands
  obtain ⟨object, hobject, -⟩ := hstands
  obtain ⟨result, hresult, -⟩ := validateNoGvl_ok (x := x) object.compiled.ir input options
  have hstep := Step.compute t began options input previous object result hphase hobject hresult
  have hthread := threads_setThread (s := s) (t := t)
    ⟨(s.threads t).skipGvl, .computed began options result previous⟩
  refine (canEnd_computed (hs.tail hstep) (congrArg Thread.phase hthread) ?_).step hstep ?_ rfl ?_
  · rw [hthread]
    exact hfree
  · exact fun t' hne => threads_setThread_of_ne hne _
  · rw [hthread, hphase]
    rfl

theorem canEnd_prepared (hs : Reachable x heap s) {began : Began} {options : ValidationOptions}
    {input : PreparedInput} (hphase : (s.threads t).phase = .prepared began options input) :
    CanEnd x s t := by
  have hstep : Step x s _ := Step.enter t began options input hphase
  have hthread : (s.enter t began options input).threads t =
      ⟨skips (s.threads t) began.request, .computing began options input (s.threads t).skipGvl⟩ :=
    threads_setThread _
  refine (canEnd_computing (hs.tail hstep) (congrArg Thread.phase hthread) ?_).step hstep ?_ rfl ?_
  · rw [hthread, Session.enter]
    intro hskip
    have hflag : skips (s.threads t) began.request = false := hskip
    rw [hflag]
    rfl
  · exact fun t' hne => threads_setThread_of_ne hne _
  · rw [hthread, hphase]
    rfl

/-- The thread can end its call by itself if no other thread holds the GVL. -/
theorem canEnd_of_free (hs : Reachable x heap s) (hfree : s.gvl = none ∨ s.gvl = some t) :
    CanEnd x s t := by
  -- a thread that holds the GVL in its validation has not released it
  have hskip (began : Began) (hsynced : (s.threads t).skipGvl = began.request.synced)
      (hlocked : s.gvl = some t → began.request.synced = true) :
      (s.threads t).skipGvl = false → s.gvl = none := by
    intro hflag
    rcases hfree with hnone | hmine
    · exact hnone
    · cases (hsynced.symm.trans hflag).symm.trans (hlocked hmine)
  have hheld := hs.held t
  have hrelies := hs.relies t
  rw [Relies] at hrelies
  cases hphase : (s.threads t).phase with
  | idle => exact canEnd_idle hphase hfree
  | prepared => exact canEnd_prepared hs hphase
  | returned => exact canEnd_returned hs hphase
  | computing began =>
    rw [hphase] at hheld hrelies
    refine canEnd_computing hs hphase (hskip began hrelies.2.1 fun h => (hheld h).resolve_left ?_)
    intro hidle
    cases hidle
  | computed began =>
    rw [hphase] at hheld hrelies
    refine canEnd_computed hs hphase (hskip began hrelies.2.1 fun h => (hheld h).resolve_left ?_)
    intro hidle
    cases hidle

/-- The GVL is given back, while no thread but its holder moves. -/
theorem canRelease (hs : Reachable x heap s) {t' : ThreadId} (hgvl : s.gvl = some t')
    (hne : t ≠ t') : ∃ s', ReflTransGen (Step x) s s' ∧ s'.gvl = none ∧
      s'.threads t = s.threads t ∧ s.ended <+: s'.ended := by
  obtain ⟨s', hrun, hends⟩ := canEnd_of_free hs (.inr hgvl)
  exact ⟨_, hrun.tail (.release t' hends.runs), rfl, hends.others t hne, hends.grows⟩

/-- There is no deadlock: from every state that the threads can reach, some run leads each thread to
its Ruby code, and if it is in a call, past the end of this call. -/
theorem calls_can_end (hs : Reachable x heap s) (t : ThreadId) :
    ∃ s', ReflTransGen (Step x) s s' ∧ s'.Runs t ∧ ∀ began ∈ (s.threads t).phase.began,
      ∃ e ∈ s'.ended.drop s.ended.length, e.began = began := by
  cases hgvl : s.gvl with
  | none =>
    obtain ⟨s', hrun, hends⟩ := canEnd_of_free hs (.inl hgvl)
    exact ⟨s', hrun, hends.runs, hends.ended⟩
  | some t' =>
    by_cases hne : t = t'
    · subst hne
      obtain ⟨s', hrun, hends⟩ := canEnd_of_free hs (.inr hgvl)
      exact ⟨s', hrun, hends.runs, hends.ended⟩
    · obtain ⟨s₁, hrun, hnone, hthread, hle⟩ := canRelease hs hgvl hne
      obtain ⟨s', hrun', hends⟩ := canEnd_of_free (hs.trans hrun) (.inl hnone)
      refine ⟨s', hrun.trans hrun', hends.runs, fun began hbegan => ?_⟩
      rw [← hthread] at hbegan
      obtain ⟨e, he, heq⟩ := hends.ended began hbegan
      exact ⟨e, (List.drop_sublist_drop_left _ hle.length_le).subset he, heq⟩

/-- In the validation of a build, while another thread holds the GVL. -/
theorem calls_can_end_tag :
    let s := { (tagBegun tagBegan.request).enter 0 tagBegan deepOptions tagPrepared with
      gvl := some 1 }
    ∃ s', ReflTransGen (Step tagExternals) s s' ∧ s'.Runs 0 ∧
      ∃ e ∈ s'.ended, e.began = tagBegan := by
  intro s
  have hbegun := tagBegun_reachable tagBegan.request rfl rfl
  have hentered := ReflTransGen.tail hbegun (Step.enter 0 tagBegan deepOptions tagPrepared rfl)
  obtain ⟨s', hrun, hruns, hended⟩ := calls_can_end (hentered.tail (Step.acquire 1 rfl rfl)) 0
  obtain ⟨e, he, hbegan⟩ := hended tagBegan rfl
  exact ⟨s', hrun, hruns, e, List.mem_of_mem_drop he, hbegan⟩

end Session
end RustlyCore
