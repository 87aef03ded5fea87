import RustlyCore.Memory.Mutation
import Mathlib.Logic.Function.Basic

/-!
# Sessions (`call_without_gvl`, `execute_with_gvl`, `NEXT_SCHEMA_ID`)

Threads share a heap, the compiled schemas and the counter of their ids. Only the thread that holds
the GVL touches them. A validation releases the GVL unless the flag `SKIP_GVL` of its thread is set,
which `build_synced` does; so other threads may change an input while it is validated.
-/

namespace RustlyCore

open Bounded (settled)
open Memory (KeepsAll)
open Relation (ReflTransGen)

abbrev ThreadId := Nat

/-- `CompiledSchema`, with the id that it drew. -/
structure SchemaObject where
  id : UInt64
  compiled : CompiledSchema

/-- A call and the heap in which it began, which nothing reads. -/
structure Began where
  request : Request
  heap : Heap

/-- Where a thread is in a call, if it is in one. `previous` is the flag before the validation. -/
inductive Phase where
  | idle
  | prepared (began : Began) (options : ValidationOptions) (input : PreparedInput)
  | computing (began : Began) (options : ValidationOptions) (input : PreparedInput)
    (previous : Bool)
  | computed (began : Began) (options : ValidationOptions) (result : ValidationResult)
    (previous : Bool)
  | returned (began : Began) (options : ValidationOptions) (result : ValidationResult)

namespace Phase

/-- The call that the thread is in. -/
def began : Phase → Option Began
  | idle => none
  | prepared began _ _ | computing began _ _ _ | computed began _ _ _ | returned began _ _ =>
    some began

/-- In a call, and not in a validation that has released the GVL. -/
def locked : Phase → Bool
  | idle => false
  | prepared _ _ _ | returned _ _ _ => true
  | computing began _ _ _ | computed began _ _ _ => began.request.synced

end Phase

/-- A thread with its `SKIP_GVL`. -/
structure Thread where
  skipGvl : Bool := false
  phase : Phase := .idle

/-- A call that has ended, with the heap at its end. -/
structure Ended where
  began : Began
  reply : Call Reply
  heap : Heap

structure Session where
  heap : Heap
  schemas : List SchemaObject
  nextSchemaId : UInt64
  gvl : Option ThreadId
  threads : ThreadId → Thread
  ended : List Ended

/-- `CompiledSchema::default`. -/
def CompiledSchema.default : CompiledSchema := .new "{}" SchemaIr.empty ⟨[]⟩

/-- Whatever else has stopped a call has stopped the process. -/
def Survives (reply : Call Reply) : Prop :=
  (∃ r, reply = .ok r) ∨ ∃ exception, reply = .error (.raised exception)

namespace Session

/-- When the extension is loaded. -/
def init (heap : Heap) : Session := ⟨heap, [], 1, none, fun _ => {}, []⟩

def setThread (s : Session) (t : ThreadId) (thread : Thread) : Session :=
  { s with threads := Function.update s.threads t thread }

/-- `wrap_compiled_schema` of what has just drawn its id. -/
def addSchema (s : Session) (compiled : CompiledSchema) : Session :=
  { s with
    schemas := s.schemas ++ [⟨s.nextSchemaId, compiled⟩]
    nextSchemaId := s.nextSchemaId + 1 }

/-- The flag during the validation. -/
def skips (thread : Thread) (request : Request) : Bool :=
  if request.synced then true else thread.skipGvl

/-- Into the validation: the GVL is released unless the flag is set. -/
def enter (s : Session) (t : ThreadId) (began : Began) (options : ValidationOptions)
    (input : PreparedInput) : Session :=
  let skip := skips (s.threads t) began.request
  { s.setThread t ⟨skip, .computing began options input (s.threads t).skipGvl⟩ with
    gvl := if skip then s.gvl else none }

/-- Out of the validation: the flag is set back. -/
def leave (s : Session) (t : ThreadId) (began : Began) (options : ValidationOptions)
    (result : ValidationResult) (previous : Bool) : Session :=
  { s.setThread t ⟨previous, .returned began options result⟩ with
    gvl := if (s.threads t).skipGvl then s.gvl else some t }

/-- The call is over. -/
def finish (s : Session) (t : ThreadId) (began : Began) (ending : Call Reply × Heap) : Session :=
  { s.setThread t ⟨(s.threads t).skipGvl, .idle⟩ with
    heap := ending.2
    ended := s.ended ++ [⟨began, ending.1, ending.2⟩] }

/-- The thread runs Ruby code. -/
def Runs (s : Session) (t : ThreadId) : Prop := s.gvl = some t ∧ (s.threads t).phase = .idle

variable (x : Externals)

/-- The step of one thread. An interrupt is raised when the GVL is taken back. -/
inductive Step (s : Session) : Session → Prop
  | acquire (t : ThreadId) : s.gvl = none → (s.threads t).phase = .idle →
    Step s { s with gvl := some t }
  | release (t : ThreadId) : s.Runs t → Step s { s with gvl := none }
  | ruby (t : ThreadId) (heap : Heap) : s.Runs t → s.heap.Mutates heap → Step s { s with heap }
  | compile (t : ThreadId) (schemaAst opts : RubyValue) (compiled : CompiledSchema) : s.Runs t →
    compile x schemaAst opts = .ok compiled → Step s (s.addSchema compiled)
  | allocate (t : ThreadId) : s.Runs t → Step s (s.addSchema .default)
  | begin (t : ThreadId) (request : Request) (object : SchemaObject) (options : ValidationOptions)
    (input : PreparedInput) : s.Runs t → s.schemas[request.schema]? = some object →
    request.begin s.heap object.compiled = settled (.ok (.inr (options, input))) →
    Step s (s.setThread t ⟨(s.threads t).skipGvl, .prepared ⟨request, s.heap⟩ options input⟩)
  | early (t : ThreadId) (request : Request) (object : SchemaObject) (reply : Call Reply) :
    s.Runs t → s.schemas[request.schema]? = some object →
    request.begin s.heap object.compiled = settled (Sum.inl <$> reply) → Survives reply →
    Step s (s.finish t ⟨request, s.heap⟩ (reply, s.heap))
  | enter (t : ThreadId) (began : Began) (options : ValidationOptions) (input : PreparedInput) :
    (s.threads t).phase = .prepared began options input → Step s (s.enter t began options input)
  | compute (t : ThreadId) (began : Began) (options : ValidationOptions) (input : PreparedInput)
    (previous : Bool) (object : SchemaObject) (result : ValidationResult) :
    (s.threads t).phase = .computing began options input previous →
    s.schemas[began.request.schema]? = some object →
    validateNoGvl x object.compiled.ir input options = .ok result →
    Step s (s.setThread t ⟨(s.threads t).skipGvl, .computed began options result previous⟩)
  | leave (t : ThreadId) (began : Began) (options : ValidationOptions) (result : ValidationResult)
    (previous : Bool) : (s.threads t).phase = .computed began options result previous →
    ((s.threads t).skipGvl = false → s.gvl = none) →
    Step s (s.leave t began options result previous)
  | interrupt (t : ThreadId) (began : Began) (options : ValidationOptions)
    (result : ValidationResult) (previous : Bool) :
    (s.threads t).phase = .computed began options result previous →
    (s.threads t).skipGvl = false → s.gvl = none →
    Step s { s.setThread t ⟨false, .idle⟩ with gvl := some t }
  | finish (t : ThreadId) (began : Began) (options : ValidationOptions) (result : ValidationResult)
    (object : SchemaObject) : (s.threads t).phase = .returned began options result →
    s.schemas[began.request.schema]? = some object →
    Survives (Request.outcome s.heap
      (began.request.finish x s.heap object.compiled options result)).1 →
    Step s (s.finish t began (Request.outcome s.heap
      (began.request.finish x s.heap object.compiled options result)))

/-- Some run of all threads leads to the session. -/
def Reachable (heap : Heap) (s : Session) : Prop := ReflTransGen (Step x) (init heap) s

/-! ## What a step can do -/

variable {x} {s s' : Session} {t : ThreadId}

theorem threads_setThread (thread : Thread) : (s.setThread t thread).threads t = thread := by
  simp only [setThread, Function.update_self]

theorem threads_setThread_of_ne {t' : ThreadId} (hne : t' ≠ t) (thread : Thread) :
    (s.setThread t thread).threads t' = s.threads t' := by
  simp only [setThread, Function.update_of_ne hne]

/-- Schemas are only added, and frozen objects stay. -/
theorem Step.grows (hstep : Step x s s') :
    s.schemas <+: s'.schemas ∧ s.heap.Mutates s'.heap ∧ s.ended <+: s'.ended := by
  have hsame : s.heap.Mutates s.heap := Heap.mutates_of_keepsAll (.refl _ _)
  cases hstep with
  | ruby t heap _ hmutates => exact ⟨List.prefix_refl _, hmutates, List.prefix_refl _⟩
  | compile | allocate => exact ⟨List.prefix_append _ _, hsame, List.prefix_refl _⟩
  | early => exact ⟨List.prefix_refl _, hsame, List.prefix_append _ _⟩
  | finish t began options result object =>
    have hk := Request.keepsAll_outcome (x := x) s.heap object.compiled options result began.request
    exact ⟨List.prefix_refl _, Heap.mutates_of_keepsAll hk, List.prefix_append _ _⟩
  | _ => exact ⟨List.prefix_refl _, hsame, List.prefix_refl _⟩

/-! ## The lock -/

/-- What a thread relies on, where it is. Outside of the validation its flag is not set. -/
def Relies (s : Session) (t : ThreadId) (thread : Thread) : Prop :=
  match thread.phase with
  | .idle => thread.skipGvl = false
  | .prepared began _ _ => thread.skipGvl = false ∧ s.gvl = some t ∧ s.heap = began.heap
  | .computing began _ _ previous | .computed began _ _ previous =>
    previous = false ∧ thread.skipGvl = began.request.synced ∧
      (began.request.synced = true → s.gvl = some t ∧ s.heap = began.heap)
  | .returned began _ _ => thread.skipGvl = false ∧ s.gvl = some t ∧
      (began.request.synced = true → s.heap = began.heap)

/-- A thread relies on the heap only while it holds the GVL. -/
theorem Relies.keep {thread : Thread} (hr : s.Relies t thread)
    (hsame : s.gvl = some t → s'.gvl = some t ∧ s'.heap = s.heap) : s'.Relies t thread := by
  obtain ⟨skip, phase⟩ := thread
  cases phase with
  | idle => exact hr
  | prepared =>
    obtain ⟨hskip, hgvl, hheap⟩ := hr
    obtain ⟨hgvl', hheap'⟩ := hsame hgvl
    exact ⟨hskip, hgvl', hheap'.trans hheap⟩
  | computing | computed =>
    obtain ⟨hprevious, hskip, hsynced⟩ := hr
    refine ⟨hprevious, hskip, fun h => ?_⟩
    obtain ⟨hgvl, hheap⟩ := hsynced h
    obtain ⟨hgvl', hheap'⟩ := hsame hgvl
    exact ⟨hgvl', hheap'.trans hheap⟩
  | returned =>
    obtain ⟨hskip, hgvl, hsynced⟩ := hr
    obtain ⟨hgvl', hheap'⟩ := hsame hgvl
    exact ⟨hskip, hgvl', fun h => hheap'.trans (hsynced h)⟩

/-- The thread that makes a step holds the GVL, or takes it, or changes nothing that is shared. -/
structure Acts (s s' : Session) (t : ThreadId) : Prop where
  others : ∀ t', t' ≠ t → s'.threads t' = s.threads t'
  shared : s.gvl = some t ∨ s.gvl = none ∨ s'.gvl = s.gvl ∧ s'.heap = s.heap
  relies : s'.Relies t (s'.threads t)

theorem Acts.all (ha : Acts s s' t) (hs : ∀ t, s.Relies t (s.threads t)) (t' : ThreadId) :
    s'.Relies t' (s'.threads t') := by
  by_cases hne : t' = t
  · subst hne
    exact ha.relies
  · rw [ha.others t' hne]
    refine (hs t').keep fun hgvl => ?_
    rcases ha.shared with hmine | hnone | ⟨hsame, hheap⟩
    · exact absurd (Option.some.inj (hgvl.symm.trans hmine)) hne
    · cases hgvl.symm.trans hnone
    · exact ⟨hsame.trans hgvl, hheap⟩

theorem Runs.skipGvl (hruns : s.Runs t) (hs : s.Relies t (s.threads t)) :
    (s.threads t).skipGvl = false := by
  rw [Relies, hruns.2] at hs
  exact hs

/-- A thread that runs Ruby code. -/
theorem Runs.relies (hruns : s.Runs t) (hs : s.Relies t (s.threads t))
    (hthread : s'.threads t = s.threads t) : s'.Relies t (s'.threads t) := by
  rw [hthread, Relies, hruns.2]
  exact hruns.skipGvl hs

theorem Step.acts (hstep : Step x s s') (hs : ∀ t, s.Relies t (s.threads t)) :
    ∃ t, Acts s s' t := by
  cases hstep with
  | acquire t hgvl hidle =>
    refine ⟨t, fun _ _ => rfl, .inr (.inl hgvl), ?_⟩
    have hskip := hs t
    rw [Relies, hidle] at hskip ⊢
    exact hskip
  | release t hruns | ruby t heap hruns | compile t ast opts compiled hruns | allocate t hruns =>
    exact ⟨t, fun _ _ => rfl, .inl hruns.1, hruns.relies (hs t) rfl⟩
  | begin t request object options input hruns =>
    refine ⟨t, fun _ hne => threads_setThread_of_ne hne _, .inl hruns.1, ?_⟩
    rw [threads_setThread]
    exact ⟨hruns.skipGvl (hs t), hruns.1, rfl⟩
  | early t request object reply hruns =>
    refine ⟨t, fun _ hne => threads_setThread_of_ne hne _, .inl hruns.1, ?_⟩
    rw [Session.finish, threads_setThread]
    exact hruns.skipGvl (hs t)
  | enter t began options input hphase =>
    have hrelies := hs t
    rw [Relies, hphase] at hrelies
    obtain ⟨hskip, hgvl, hheap⟩ := hrelies
    refine ⟨t, fun _ hne => threads_setThread_of_ne hne _, .inl hgvl, ?_⟩
    have hflag : skips (s.threads t) began.request = began.request.synced := by
      rw [skips, hskip]
      cases began.request.synced <;> rfl
    rw [Session.enter, threads_setThread]
    refine ⟨hskip, hflag, fun hsynced => ⟨?_, hheap⟩⟩
    simp only [hflag, hsynced, if_true]
    exact hgvl
  | compute t began options input previous object result hphase =>
    have hrelies := hs t
    rw [Relies, hphase] at hrelies
    refine ⟨t, fun _ hne => threads_setThread_of_ne hne _, .inr (.inr ⟨rfl, rfl⟩), ?_⟩
    rw [threads_setThread]
    exact hrelies
  | leave t began options result previous hphase hfree =>
    have hrelies := hs t
    rw [Relies, hphase] at hrelies
    obtain ⟨hprevious, hflag, hsynced⟩ := hrelies
    cases hskip : (s.threads t).skipGvl with
    | true =>
      obtain ⟨hgvl, hheap⟩ := hsynced (hflag.symm.trans hskip)
      refine ⟨t, fun _ hne => threads_setThread_of_ne hne _, .inl hgvl, ?_⟩
      rw [Session.leave, threads_setThread]
      simp only [hskip, if_true]
      exact ⟨hprevious, hgvl, fun _ => hheap⟩
    | false =>
      refine ⟨t, fun _ hne => threads_setThread_of_ne hne _, .inr (.inl (hfree hskip)), ?_⟩
      rw [Session.leave, threads_setThread]
      simp only [hskip, Bool.false_eq_true, if_false]
      refine ⟨hprevious, rfl, fun h => ?_⟩
      cases hflag.symm.trans hskip |>.symm.trans h
  | interrupt t began options result previous hphase hskip hgvl =>
    refine ⟨t, fun _ hne => threads_setThread_of_ne hne _, .inr (.inl hgvl), ?_⟩
    rw [threads_setThread]
    rfl
  | finish t began options result object hphase =>
    have hrelies := hs t
    rw [Relies, hphase] at hrelies
    obtain ⟨hskip, hgvl, -⟩ := hrelies
    refine ⟨t, fun _ hne => threads_setThread_of_ne hne _, .inl hgvl, ?_⟩
    rw [Session.finish, threads_setThread]
    exact hskip

theorem Reachable.relies {heap : Heap} (hs : Reachable x heap s) (t : ThreadId) :
    s.Relies t (s.threads t) := by
  induction hs generalizing t with
  | refl => exact rfl
  | tail _ hstep ih =>
    obtain ⟨t', ha⟩ := hstep.acts ih
    exact ha.all ih t

end Session

/-! ## The calls -/

/-- What a thread has so far is what the call began with and what the schema makes of it. -/
def Phase.Stands (x : Externals) (schemas : List SchemaObject) : Phase → Prop
  | .idle => True
  | .prepared began options input | .computing began options input _ =>
    ∃ object, schemas[began.request.schema]? = some object ∧
      began.request.begin began.heap object.compiled = settled (.ok (.inr (options, input)))
  | .computed began options result _ | .returned began options result =>
    ∃ object input, schemas[began.request.schema]? = some object ∧
      began.request.begin began.heap object.compiled = settled (.ok (.inr (options, input))) ∧
      validateNoGvl x object.compiled.ir input options = .ok result

/-- The call has ended as it does for the tree that its input was when it began. -/
def Ended.Stands (x : Externals) (schemas : List SchemaObject) (e : Ended) : Prop :=
  ∃ object, schemas[e.began.request.schema]? = some object ∧
    ∀ t, e.began.heap.Unfolds e.began.request.input t →
      e.began.request.Answers x object.compiled t e.reply e.heap

variable {x : Externals} {s s' : Session} {t : ThreadId}

theorem get_of_le {α : Type} {as bs : List α} (hle : as <+: bs) {i : Nat} {a : α}
    (ha : as[i]? = some a) : bs[i]? = some a := by
  obtain ⟨cs, rfl⟩ := hle
  rw [List.getElem?_append_left (Memory.lt_of_get ha), ha]

theorem Phase.Stands.grow {schemas schemas' : List SchemaObject} {phase : Phase}
    (hphase : phase.Stands x schemas) (hle : schemas <+: schemas') : phase.Stands x schemas' := by
  cases phase with
  | idle => trivial
  | prepared | computing =>
    obtain ⟨object, hobject, hrest⟩ := hphase
    exact ⟨object, get_of_le hle hobject, hrest⟩
  | computed | returned =>
    obtain ⟨object, input, hobject, hrest⟩ := hphase
    exact ⟨object, input, get_of_le hle hobject, hrest⟩

theorem Ended.Stands.grow {schemas schemas' : List SchemaObject} {e : Ended}
    (he : e.Stands x schemas) (hle : schemas <+: schemas') : e.Stands x schemas' := by
  obtain ⟨object, hobject, hrest⟩ := he
  exact ⟨object, get_of_le hle hobject, hrest⟩

namespace Session

/-- A thread whose phase is another one after the step. -/
theorem stands_setThread (hs : ∀ t, (s.threads t).phase.Stands x s.schemas) {thread : Thread}
    (hthread : thread.phase.Stands x s.schemas) (t' : ThreadId) :
    ((s.setThread t thread).threads t').phase.Stands x s.schemas := by
  by_cases hne : t' = t
  · subst hne
    rw [threads_setThread]
    exact hthread
  · rw [threads_setThread_of_ne hne]
    exact hs t'

theorem Step.phases (hstep : Step x s s') (hs : ∀ t, (s.threads t).phase.Stands x s.schemas)
    (t : ThreadId) : (s'.threads t).phase.Stands x s'.schemas := by
  cases hstep with
  | acquire | release | ruby => exact hs t
  | compile | allocate => exact (hs t).grow (List.prefix_append _ _)
  | begin t' request object options input _ hobject hbegin =>
    refine stands_setThread hs ?_ t
    exact ⟨object, hobject, hbegin⟩
  | early | interrupt | finish =>
    refine stands_setThread hs ?_ t
    trivial
  | enter t' began options input hphase =>
    have hstands := hs t'
    rw [hphase] at hstands
    refine stands_setThread hs ?_ t
    exact hstands
  | compute t' began options input previous object result hphase hobject hresult =>
    have hstands := hs t'
    rw [hphase] at hstands
    obtain ⟨object', hobject', hbegin⟩ := hstands
    cases hobject.symm.trans hobject'
    refine stands_setThread hs ?_ t
    exact ⟨object, input, hobject, hbegin, hresult⟩
  | leave t' began options result previous hphase =>
    have hstands := hs t'
    rw [hphase] at hstands
    refine stands_setThread hs ?_ t
    exact hstands

theorem Step.ends (hstep : Step x s s') (hs : ∀ t, (s.threads t).phase.Stands x s.schemas)
    (he : ∀ e ∈ s.ended, e.Stands x s.schemas) : ∀ e ∈ s'.ended, e.Stands x s'.schemas := by
  cases hstep with
  | compile | allocate => exact fun e hmem => (he e hmem).grow (List.prefix_append _ _)
  | early t request object reply _ hobject hbegin =>
    refine List.forall_mem_append.2 ⟨he, List.forall_mem_singleton.2 ⟨object, hobject, ?_⟩⟩
    intro tree ht
    rw [Request.begin_unfolds ht] at hbegin
    have hearly : Request.Early object.compiled tree request reply := Bounded.settled_inj.1 hbegin
    exact hearly.answers
  | finish t began options result object hphase hobject =>
    refine List.forall_mem_append.2 ⟨he, List.forall_mem_singleton.2 ⟨object, hobject, ?_⟩⟩
    intro tree ht
    have hstands := hs t
    rw [hphase] at hstands
    obtain ⟨object', input, hobject', hbegin, hresult⟩ := hstands
    cases hobject.symm.trans hobject'
    rw [Request.begin_unfolds ht] at hbegin
    have hvalidated : Request.Validated x object.compiled tree began.request options result :=
      ⟨input, Bounded.settled_inj.1 hbegin, hresult⟩
    exact hvalidated.answers s.heap
  | _ => exact he

theorem Reachable.stands {heap : Heap} (hs : Reachable x heap s) :
    (∀ t, (s.threads t).phase.Stands x s.schemas) ∧ ∀ e ∈ s.ended, e.Stands x s.schemas := by
  induction hs with
  | refl => exact ⟨fun _ => trivial, List.forall_mem_nil _⟩
  | tail _ hstep ih => exact ⟨hstep.phases ih.1, hstep.ends ih.1 ih.2⟩

/-! ## Deeply frozen instances -/

/-- If the instance that was returned is deeply frozen, it still is what it was. -/
def Lasts (schemas : List SchemaObject) (heap : Heap) (e : Ended) : Prop :=
  ∀ object v, schemas[e.began.request.schema]? = some object →
    object.compiled.options.freeze = .deep → e.reply = .ok (.instance_ v) →
    heap.AllFrozen v ∧ ∀ r, Objects.DenotesInstance e.heap v r → Objects.DenotesInstance heap v r

theorem Step.lasts (hstep : Step x s s') {e : Ended} (hstands : e.Stands x s.schemas)
    (he : Lasts s.schemas s.heap e) : Lasts s'.schemas s'.heap e := by
  obtain ⟨hschemas, hmutates, -⟩ := hstep.grows
  obtain ⟨object, hobject, -⟩ := hstands
  intro object' v hobject' hdeep hreply
  cases (get_of_le hschemas hobject).symm.trans hobject'
  obtain ⟨hfrozen, hdenotes⟩ := he object v hobject hdeep hreply
  exact ⟨hfrozen.mutates hmutates, fun r hr => (hdenotes r hr).mutates hfrozen hmutates⟩

/-- A call that has just ended. -/
theorem Step.lasts_new (hstep : Step x s s') (hs : ∀ t, (s.threads t).phase.Stands x s.schemas)
    {e : Ended} (hnew : e ∉ s.ended) (he : e ∈ s'.ended) : Lasts s'.schemas s'.heap e := by
  cases hstep with
  | early t request object reply _ hobject hbegin =>
    rcases List.mem_append.1 he with hold | hmem
    · exact absurd hold hnew
    · cases List.mem_singleton.1 hmem
      intro object' v _ _ hreply
      cases hreply
      obtain ⟨answer, heq⟩ := Request.begin_eq_inl hbegin
      cases heq
  | finish t began options result object hphase hobject =>
    rcases List.mem_append.1 he with hold | hmem
    · exact absurd hold hnew
    · cases List.mem_singleton.1 hmem
      intro object' v hobject' hdeep hreply
      cases hobject.symm.trans hobject'
      refine ⟨?_, fun r hr => hr⟩
      have hstands := hs t
      rw [hphase] at hstands
      obtain ⟨object', input, hobject', hbegin, -⟩ := hstands
      cases hobject.symm.trans hobject'
      have hoptions := Request.begin_eq_inr hbegin
      apply Request.allFrozen_outcome ?_ hreply
      cases hrequest : began.request with
      | validate =>
        rw [hrequest] at hreply
        cases hreply
      | build | buildSynced =>
        rw [hrequest] at hoptions
        cases hoptions
        exact hdeep
  | _ => exact absurd he hnew

theorem Reachable.lasts {heap : Heap} (hs : Reachable x heap s) :
    ∀ e ∈ s.ended, Lasts s.schemas s.heap e := by
  induction hs with
  | refl => exact List.forall_mem_nil _
  | @tail s s' hreach hstep ih =>
    intro e he
    obtain ⟨hphases, hends⟩ := Reachable.stands hreach
    by_cases hold : e ∈ s.ended
    · exact hstep.lasts (hends e hold) (ih e hold)
    · exact hstep.lasts_new hphases hold he

/-! ## The ids of schemas -/

/-- The counter and the ids that it gave. -/
def Counts (s : Session) : Prop :=
  s.nextSchemaId = .ofNat (s.schemas.length + 1) ∧
    ∀ (i : Nat) (object : SchemaObject), s.schemas[i]? = some object → object.id = .ofNat (i + 1)

theorem Counts.addSchema (hs : s.Counts) (compiled : CompiledSchema) :
    (s.addSchema compiled).Counts := by
  obtain ⟨hnext, hids⟩ := hs
  constructor
  · change s.nextSchemaId + 1 = .ofNat ((s.schemas ++ [_]).length + 1)
    rw [hnext, List.length_append, List.length_singleton, UInt64.ofNat_add (s.schemas.length + 1)]
    rfl
  · intro i object hobject
    change (s.schemas ++ [_])[i]? = some object at hobject
    rcases Nat.lt_or_ge i s.schemas.length with hlt | hge
    · rw [List.getElem?_append_left hlt] at hobject
      exact hids i object hobject
    · rw [List.getElem?_append_right hge] at hobject
      obtain ⟨hlt, rfl⟩ := List.getElem?_eq_some_iff.1 hobject
      have hi : i = s.schemas.length := by
        rw [List.length_singleton] at hlt
        omega
      rw [List.getElem_singleton, hi]
      exact hnext

theorem Step.counts (hstep : Step x s s') (hs : s.Counts) : s'.Counts := by
  cases hstep with
  | compile | allocate => exact hs.addSchema _
  | _ => exact hs

theorem Reachable.counts {heap : Heap} (hs : Reachable x heap s) : s.Counts := by
  induction hs with
  | refl =>
    refine ⟨rfl, ?_⟩
    intro i object hobject
    cases hobject
  | tail _ hstep ih => exact hstep.counts ih

theorem grows_of_run (hrun : ReflTransGen (Step x) s s') :
    s.schemas <+: s'.schemas ∧ s.heap.Mutates s'.heap ∧ s.ended <+: s'.ended := by
  induction hrun with
  | refl => exact ⟨List.prefix_refl _, Heap.mutates_of_keepsAll (.refl _ _), List.prefix_refl _⟩
  | tail _ hstep ih =>
    obtain ⟨hschemas, hmutates, hended⟩ := ih
    obtain ⟨hschemas', hmutates', hended'⟩ := hstep.grows
    exact ⟨hschemas.trans hschemas', hmutates.trans hmutates', hended.trans hended'⟩

/-! ## An input that changes while it is validated -/

/-- A Hash with a String under `tag`. -/
def tagHeap (text : String) : Heap :=
  [.hash ⟨"Hash", false⟩ [(.symbol "tag".toUTF8, .ref 1)], .string ⟨"String", false⟩ text.toUTF8]

def deepOptions : ValidationOptions := { freeze := .deep }

def deepSchema : CompiledSchema := { tagSchema with options := deepOptions }

theorem deepSchema_compiles : RustlyCore.compile tagExternals (.utf8Str tagSource)
    (.hash ⟨"Hash", false⟩ [(.id2sym "freeze", .bool true)]) = .ok deepSchema :=
  compile_text rfl (by decide) rfl
    (parseTypeExpr_struct (by decide) (tagFields_parsed (by decide) _)) rfl rfl

def tagPrepared : PreparedInput := .owned (.dict [("tag", .string "ab")])

def tagResult : ValidationResult := ⟨some (.struct ⟨["tag"], [some (.symbol "ab")], none⟩), []⟩

theorem deepSchema_validates :
    validateNoGvl tagExternals deepSchema.ir tagPrepared deepOptions = .ok tagResult := by
  have hconv : Conv deepOptions (.struct [⟨"tag", .required, .primitive .symbol⟩] .forbid) true
      (.dict [("tag", .string "ab")]) (.struct ⟨["tag"], [some (.symbol "ab")], none⟩) :=
    ⟨_, _, _, rfl, rfl, ⟨.inl ⟨_, _, .head, rfl, "ab", .string rfl, rfl⟩, trivial⟩, rfl, rfl⟩
  have haccepts : validatePreparedInput tagExternals deepSchema.ir tagPrepared deepOptions =
      some tagResult :=
    validatePreparedInput_accepts_iff.2 ⟨_, rfl, (buildIr_accepts_iff (by decide)).2 hconv⟩
  rw [validateNoGvl, haccepts]
  rfl

/-- The first thread has compiled the schema and has begun a call. -/
def tagBegun (request : Request) : Session :=
  (({ init (tagHeap "ab") with gvl := some 0 } : Session).addSchema deepSchema).setThread 0
    ⟨false, .prepared ⟨request, tagHeap "ab"⟩ deepOptions tagPrepared⟩

theorem tagBegun_reachable (request : Request) (hschema : request.schema = 0)
    (hbegin : request.begin (tagHeap "ab") deepSchema =
      settled (.ok (.inr (deepOptions, tagPrepared)))) :
    Reachable tagExternals (tagHeap "ab") (tagBegun request) := by
  refine ((ReflTransGen.single (Step.acquire 0 rfl rfl)).tail
    (Step.compile 0 _ _ deepSchema ⟨rfl, rfl⟩ deepSchema_compiles)).tail
    (Step.begin 0 request ⟨1, deepSchema⟩ deepOptions tagPrepared ⟨rfl, rfl⟩ ?_ hbegin)
  rw [hschema]
  rfl

def tagBegan : Began := ⟨.build 0 (.ref 0) "Post", tagHeap "ab"⟩

/-- While the first thread validates, the second one changes the text. -/
def tagEnded : Session :=
  let entered := (tagBegun tagBegan.request).enter 0 tagBegan deepOptions tagPrepared
  let changed := { entered with gvl := none, heap := tagHeap "zz" }
  let computed := changed.setThread 0 ⟨false, .computed tagBegan deepOptions tagResult false⟩
  let left := computed.leave 0 tagBegan deepOptions tagResult false
  left.finish 0 tagBegan (Request.outcome left.heap
    (tagBegan.request.finish tagExternals left.heap deepSchema deepOptions tagResult))

theorem tagEnded_reachable : Reachable tagExternals (tagHeap "ab") tagEnded := by
  have hbegun := tagBegun_reachable tagBegan.request rfl rfl
  have hentered := ReflTransGen.tail hbegun (Step.enter 0 tagBegan deepOptions tagPrepared rfl)
  have hmutates : Heap.Mutates (tagHeap "ab") (tagHeap "zz") := by
    intro a ha
    match a with
    | 0 | 1 => cases ha
    | a + 2 => cases ha
  have hchanged := ((hentered.tail (Step.acquire 1 rfl rfl)).tail
    (Step.ruby 1 (tagHeap "zz") ⟨rfl, rfl⟩ hmutates)).tail (Step.release 1 ⟨rfl, rfl⟩)
  have hcomputed := hchanged.tail (Step.compute 0 tagBegan deepOptions tagPrepared false
    ⟨1, deepSchema⟩ tagResult rfl rfl deepSchema_validates)
  have hleft := hcomputed.tail (Step.leave 0 tagBegan deepOptions tagResult false rfl fun _ => rfl)
  exact hleft.tail (Step.finish 0 tagBegan deepOptions tagResult ⟨1, deepSchema⟩ rfl rfl
    (.inl ⟨.instance_ (.ref 2), rfl⟩))

/-! ## Runs -/

/-- However the threads take turns, and whatever Ruby code does to an input while it is validated:
a call returns what it returns for the tree that its input was when the call began, under the schema
that was compiled. -/
theorem calls_isolated {heap : Heap} (hs : Reachable x heap s) :
    ∀ e ∈ s.ended, ∃ object, s.schemas[e.began.request.schema]? = some object ∧
      ∀ t, e.began.heap.Unfolds e.began.request.input t →
        e.began.request.Answers x object.compiled t e.reply e.heap :=
  hs.stands.2

/-- The build that began with one text is a build of this text. -/
theorem calls_isolated_tag : ∃ r, build tagExternals deepSchema (tagInput "ab") "Post" = .ok r ∧
    Objects.DenotesInstance tagEnded.heap (.ref 2) r := by
  obtain ⟨object, hobject, hanswers⟩ := calls_isolated tagEnded_reachable _ List.mem_cons_self
  cases hobject
  have htree : Heap.Unfolds (tagHeap "ab") (.ref 0) (tagInput "ab") :=
    ⟨0, _, rfl, rfl, ⟨rfl, 1, rfl, rfl⟩, trivial⟩
  obtain ⟨klass, hklass, r, hbuild, hr⟩ := (hanswers _ htree).instance_
  cases hklass
  exact ⟨r, hbuild, hr⟩

theorem Reachable.gvl {heap : Heap} (hs : Reachable x heap s)
    (hlocked : (s.threads t).phase.locked = true) : s.gvl = some t := by
  have hrelies := hs.relies t
  rw [Relies] at hrelies
  cases hphase : (s.threads t).phase with
  | idle =>
    rw [hphase] at hlocked
    cases hlocked
  | prepared =>
    rw [hphase] at hrelies
    exact hrelies.2.1
  | computing | computed =>
    rw [hphase] at hrelies hlocked
    exact (hrelies.2.2 hlocked).1
  | returned =>
    rw [hphase] at hrelies
    exact hrelies.2.1

/-- Schemas are never changed, and their ids are 1, 2, 3 and so on modulo 2^64, so two schemas have
the same id if and only if the number of schemas between them is a multiple of this. -/
theorem schema_ids {heap : Heap} (hs : Reachable x heap s) (hrun : ReflTransGen (Step x) s s') :
    (∀ (i : Nat) (object : SchemaObject), s.schemas[i]? = some object →
      s'.schemas[i]? = some object) ∧
    ∀ (i j : Nat) (object object' : SchemaObject),
      s'.schemas[i]? = some object → s'.schemas[j]? = some object' →
      (i + 1 < 2 ^ 64 → object.id.toNat = i + 1) ∧
        (object.id = object'.id ↔ i % 2 ^ 64 = j % 2 ^ 64) := by
  obtain ⟨hschemas, -⟩ := grows_of_run hrun
  obtain ⟨-, hids⟩ := Reachable.counts (hs.trans hrun)
  refine ⟨fun i object hobject => get_of_le hschemas hobject, ?_⟩
  intro i j object object' hobject hobject'
  rw [hids i object hobject, hids j object' hobject']
  refine ⟨fun hlt => ?_, ?_⟩
  · rw [UInt64.toNat_ofNat', Nat.mod_eq_of_lt hlt]
  · rw [← UInt64.toNat_inj, UInt64.toNat_ofNat', UInt64.toNat_ofNat']
    omega

/-- One schema has been made. -/
theorem schema_ids_tag : ∃ object, tagEnded.schemas[0]? = some object ∧ object.id.toNat = 1 :=
  ⟨_, rfl, ((schema_ids tagEnded_reachable .refl).2 0 0 _ _ rfl rfl).1 (by decide)⟩

/-- Of an instance that was built under `freeze: :deep` all is frozen, at its end and ever after,
and it is the instance that a build makes of the tree that its input was when the call began. -/
theorem deep_instances_last {heap : Heap} (hs : Reachable x heap s)
    (hrun : ReflTransGen (Step x) s s') :
    ∀ e ∈ s.ended, ∀ object v, s.schemas[e.began.request.schema]? = some object →
      object.compiled.options.freeze = .deep → e.reply = .ok (.instance_ v) →
      s'.heap.AllFrozen v ∧ ∀ t, e.began.heap.Unfolds e.began.request.input t →
        ∃ klass ∈ e.began.request.klass, ∃ r, build x object.compiled t klass = .ok r ∧
          Objects.DenotesInstance s'.heap v r := by
  intro e he object v hobject hdeep hreply
  obtain ⟨hschemas, -, hended⟩ := grows_of_run hrun
  have hs' : Reachable x heap s' := hs.trans hrun
  obtain ⟨hfrozen, hdenotes⟩ :=
    hs'.lasts e (hended.subset he) object v (get_of_le hschemas hobject) hdeep hreply
  refine ⟨hfrozen, fun t ht => ?_⟩
  obtain ⟨object', hobject', hanswers⟩ := hs.stands.2 e he
  cases hobject.symm.trans hobject'
  have hanswer := hanswers t ht
  rw [hreply] at hanswer
  obtain ⟨klass, hklass, r, hbuild, hr⟩ := hanswer.instance_
  exact ⟨klass, hklass, r, hbuild, hdenotes r hr⟩

/-- The text that was changed has not been in the instance. -/
theorem deep_instances_last_tag : tagEnded.heap.AllFrozen (.ref 2) :=
  (deep_instances_last tagEnded_reachable .refl _ List.mem_cons_self ⟨1, deepSchema⟩ (.ref 2) rfl
    rfl rfl).1

end Session
end RustlyCore
