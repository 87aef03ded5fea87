import RustlyCore.Progress
import RustlyCore.Rebuild

/-!
# Attributes as an input, later

A deeply frozen instance keeps its attributes for as long as it lives. Whatever other threads and
other Ruby code have done since, a call that takes the attributes as its input ends as the call of
the input did from which the instance was built.
-/

namespace RustlyCore

open Relation (ReflTransGen)

variable {x : Externals}

/-! ## The attributes in memory -/

theorem lookup_of_ivarRel {R : Value → RubyValue → Prop} {ivars : List (String × Value)}
    {ivars' : List (String × RubyValue)} (h : List.Forall₂ (Objects.IvarRel R) ivars ivars')
    (id : String) : Option.Rel R (ivars.lookup id) (ivars'.lookup id) := by
  induction h with
  | nil => exact .none
  | @cons p q ivars ivars' hpq _ ih =>
    obtain ⟨name, v⟩ := p
    obtain ⟨_, r⟩ := q
    obtain ⟨rfl, hr⟩ := hpq
    rw [lookup_cons_if, lookup_cons_if]
    split
    · exact .some hr
    · exact ih

/-- An instance variable of a tree is one of the object, which holds what it holds. -/
theorem Objects.DenotesInstance.ivar {h : Heap} {v : Value} {r t : RubyValue} {id : String}
    (hr : Objects.DenotesInstance h v r) (ht : r.ivar id = some t) :
    ∃ a, h.ivar id v = some a ∧ h.Unfolds a t := by
  cases r with
  | object basic ivars' =>
    obtain ⟨address, ivars, rfl, hslot, hivars⟩ := hr
    have hlookup := lookup_of_ivarRel hivars id
    rw [show ivars'.lookup id = some t from ht] at hlookup
    cases ha : ivars.lookup id with
    | none =>
      rw [ha] at hlookup
      cases hlookup
    | some a =>
      rw [ha] at hlookup
      cases hlookup with
      | some hdenotes =>
        refine ⟨a, ?_, hdenotes.unfolds⟩
        rw [Heap.ivar, hslot]
        exact ha
  | _ => cases hr

/-! ## Inputs of one meaning -/

/-- No options of its own. -/
def Request.Plain : Request → Prop
  | validate _ _ opts => opts = .nil
  | _ => True

/-- Two trees that validate to the same are answered alike. -/
theorem Request.Answers.of_validates {compiled : CompiledSchema} {t t' : RubyValue} {w : OwnedValue}
    {request : Request} {reply : Call Reply} {h : Heap} (hplain : request.Plain)
    (hw : compiled.Validates x t w) (hw' : compiled.Validates x t' w)
    (ha : request.Answers x compiled t' reply h) : request.Answers x compiled t reply h := by
  cases request with
  | validate schema input opts =>
    cases hplain
    rw [Answers, validate_valid_iff.2 ⟨w, hw'⟩] at ha
    rw [Answers, validate_valid_iff.2 ⟨w, hw⟩]
    exact ha
  | build schema input klass | buildSynced schema input klass =>
    rw [Answers, hw'.build_eq klass] at ha
    rw [Answers, hw.build_eq klass]
    exact ha

namespace Session

variable {s s' s'' : Session}

/-! ## An instance and its copy -/

/-- The thread validates and ends its call while no other thread moves. -/
def through (x : Externals) (s : Session) (t : ThreadId) (began : Began) (compiled : CompiledSchema)
    (options : ValidationOptions) (input : PreparedInput) (result : ValidationResult) : Session :=
  let entered := s.enter t began options input
  let computed := entered.setThread t
    ⟨(entered.threads t).skipGvl, .computed began options result (s.threads t).skipGvl⟩
  let left := computed.leave t began options result (s.threads t).skipGvl
  left.finish t began (Request.outcome left.heap
    (began.request.finish x left.heap compiled options result))

def keptOptions : ValidationOptions := { freeze := .deep, storeAttributes := true }

def keptSchema : CompiledSchema := { tagSchema with options := keptOptions }

theorem keptSchema_compiles : RustlyCore.compile tagExternals (.utf8Str tagSource)
    (.hash ⟨"Hash", false⟩ [(.id2sym "freeze", .bool true),
      (.id2sym "store_attributes", .bool true)]) = .ok keptSchema :=
  compile_text rfl (by decide) rfl
    (parseTypeExpr_struct (by decide) (tagFields_parsed (by decide) _)) rfl rfl

def keptBegan : Began := ⟨.build 0 (.ref 0) "Post", tagHeap "ab"⟩

/-- An instance has been built. -/
def kept : Session :=
  ((({ init (tagHeap "ab") with gvl := some 0 } : Session).addSchema keptSchema).setThread 0
    ⟨false, .prepared keptBegan keptOptions tagPrepared⟩).through tagExternals 0 keptBegan
      keptSchema keptOptions tagPrepared tagResult

def copyBegan : Began := ⟨.build 0 (.ref 3) "Copy", kept.heap⟩

def copyPrepared : PreparedInput := .owned (.dict [("tag", .symbol "ab")])

/-- Another one has been built from its attributes. -/
def copied : Session :=
  (kept.setThread 0 ⟨false, .prepared copyBegan keptOptions copyPrepared⟩).through tagExternals 0
    copyBegan keptSchema keptOptions copyPrepared tagResult

theorem kept_validates {v : OwnedValue} (hv : v.IsSymbol false "ab") :
    validateNoGvl tagExternals keptSchema.ir (.owned (.dict [("tag", v)])) keptOptions =
      .ok tagResult := by
  have hconv : Conv keptOptions (.struct [⟨"tag", .required, .primitive .symbol⟩] .forbid) true
      (.dict [("tag", v)]) (.struct ⟨["tag"], [some (.symbol "ab")], none⟩) :=
    ⟨_, _, _, rfl, rfl, ⟨.inl ⟨_, _, .head, rfl, "ab", hv, rfl⟩, trivial⟩, rfl, rfl⟩
  have haccepts : validatePreparedInput tagExternals keptSchema.ir (.owned (.dict [("tag", v)]))
      keptOptions = some tagResult :=
    validatePreparedInput_accepts_iff.2 ⟨_, rfl, (buildIr_accepts_iff (by decide)).2 hconv⟩
  rw [validateNoGvl, haccepts]
  rfl

theorem through_run (object : SchemaObject) {t : ThreadId} {began : Began}
    {options : ValidationOptions} {input : PreparedInput} {result : ValidationResult}
    (hphase : (s.threads t).phase = .prepared began options input)
    (hobject : s.schemas[began.request.schema]? = some object)
    (hresult : validateNoGvl x object.compiled.ir input options = .ok result) :
    ReflTransGen (Step x) s (s.through x t began object.compiled options input result) := by
  have hentered : (s.enter t began options input).threads t =
      ⟨skips (s.threads t) began.request, .computing began options input (s.threads t).skipGvl⟩ :=
    threads_setThread _
  have hcomputed := threads_setThread (s := s.enter t began options input) (t := t)
    ⟨((s.enter t began options input).threads t).skipGvl,
      .computed began options result (s.threads t).skipGvl⟩
  refine (((ReflTransGen.single (Step.enter t began options input hphase)).tail
    (Step.compute t began options input _ object result (congrArg Thread.phase hentered) hobject
      hresult)).tail
    (Step.leave t began options result _ (congrArg Thread.phase hcomputed) ?_)).tail
    (Step.finish t began options result object ?_ hobject
      (Request.survives_outcome _ began.request hresult))
  · rw [hcomputed, hentered]
    intro hskip
    have hflag : skips (s.threads t) began.request = false := hskip
    change (if skips (s.threads t) began.request then s.gvl else none) = none
    rw [hflag]
    rfl
  · rw [Session.leave, threads_setThread]

theorem kept_reachable : Reachable tagExternals (tagHeap "ab") kept := by
  refine (((ReflTransGen.single (Step.acquire 0 rfl rfl)).tail
    (Step.compile 0 _ _ keptSchema ⟨rfl, rfl⟩ keptSchema_compiles)).tail
    (Step.begin 0 keptBegan.request ⟨1, keptSchema⟩ keptOptions tagPrepared ⟨rfl, rfl⟩ rfl
      rfl)).trans
    (through_run ⟨1, keptSchema⟩ rfl rfl (kept_validates (.string rfl)))

theorem copied_run : ReflTransGen (Step tagExternals) kept copied := by
  refine (ReflTransGen.single (Step.begin 0 copyBegan.request ⟨1, keptSchema⟩ keptOptions
    copyPrepared ⟨rfl, rfl⟩ rfl rfl)).trans
    (through_run ⟨1, keptSchema⟩ rfl rfl (kept_validates (.symbol "ab")))

/-- The attributes of a deeply frozen instance, in any later state: a call that takes them is
answered as a call of the tree from which the instance was built. -/
theorem attributes_last {heap : Heap} (hs : Reachable x heap s) (hrun : ReflTransGen (Step x) s s')
    (hrun' : ReflTransGen (Step x) s' s'') {e : Ended} (he : e ∈ s.ended) (object : SchemaObject)
    (hobject : s.schemas[e.began.request.schema]? = some object) {schemaAst opts : RubyValue}
    (hcompile : RustlyCore.compile x schemaAst opts = .ok object.compiled)
    (hd : object.compiled.ir.DistinctNames)
    (hwraps : ¬ (object.compiled.ir.unfold object.compiled.ir.root).WrapsFields)
    (hdeep : object.compiled.options.freeze = .deep)
    (hstore : object.compiled.options.storeAttributes = true)
    (hmode : object.compiled.options.inputMode ≠ .json) {v : Value}
    (hreply : e.reply = .ok (.instance_ v)) {t : RubyValue}
    (ht : e.began.heap.Unfolds e.began.request.input t)
    (hkeys : ∀ u, object.compiled.Reads x t u → u.DistinctKeys) :
    ∃ attributes, s'.heap.ivar "@attributes" v = some attributes ∧ ∀ e' ∈ s''.ended,
      e'.began.heap = s'.heap → e'.began.request.schema = e.began.request.schema →
      e'.began.request.input = attributes → e'.began.request.Plain →
        e'.began.request.Answers x object.compiled t e'.reply e'.heap := by
  have hs' : Reachable x heap s' := hs.trans hrun
  have hs'' : Reachable x heap s'' := hs'.trans hrun'
  obtain ⟨hschemas, -, hended⟩ := grows_of_run hrun
  obtain ⟨hschemas', -, -⟩ := grows_of_run hrun'
  -- the build of the tree and its attributes
  obtain ⟨object', hobject', hanswers⟩ := hs.stands.2 e he
  cases hobject.symm.trans hobject'
  have hanswer := hanswers t ht
  rw [hreply] at hanswer
  obtain ⟨klass, -, r, hbuild, hr⟩ := hanswer.instance_
  obtain ⟨tree, w, htree, hw, hagain⟩ :=
    attributes_validate hcompile hd hwraps hstore hmode hkeys hbuild
  -- the instance has not changed since
  obtain ⟨-, hdenotes⟩ :=
    hs'.lasts e (hended.subset he) object v (get_of_le hschemas hobject) hdeep hreply
  obtain ⟨attributes, hattributes, hunfolds⟩ := (hdenotes r hr).ivar htree
  refine ⟨attributes, hattributes, fun e' he' hheap hschema hinput hplain => ?_⟩
  obtain ⟨object', hobject', hanswers'⟩ := hs''.stands.2 e' he'
  rw [hschema] at hobject'
  cases (get_of_le (hschemas.trans hschemas') hobject).symm.trans hobject'
  have hanswer' := hanswers' tree (by rwa [hheap, hinput])
  exact hanswer'.of_validates hplain hw (hagain object.compiled.options.strict)

/-- The copy is what would be built from the first input. -/
theorem attributes_last_copy : ∃ r, build tagExternals keptSchema (tagInput "ab") "Copy" = .ok r ∧
    Objects.DenotesInstance copied.heap (.ref 4) r := by
  have hroot : keptSchema.ir.arena.get keptSchema.ir.root =
    some (.struct [⟨"tag", .required, .new 0⟩] .forbid) := rfl
  have hwraps : ¬ (keptSchema.ir.unfold keptSchema.ir.root).WrapsFields := by
    rw [SchemaIr.unfold_of_get hroot]
    exact id
  have htree : Heap.Unfolds (tagHeap "ab") (.ref 0) (tagInput "ab") :=
    ⟨0, _, rfl, rfl, ⟨rfl, 1, rfl, rfl⟩, trivial⟩
  have hkeys (u : OwnedValue) (hu : keptSchema.Reads tagExternals (tagInput "ab") u) :
      u.DistinctKeys := by
    have hreads : keptSchema.Reads tagExternals (tagInput "ab") (.dict [("tag", .string "ab")]) :=
      ⟨_, prepareInput_tag "ab", rfl⟩
    rw [hu.unique hreads]
    exact .dict (List.nodup_singleton _) (List.forall_mem_singleton.2 (.string "ab"))
  obtain ⟨attributes, hattributes, hcalls⟩ := attributes_last kept_reachable .refl copied_run
    List.mem_cons_self ⟨1, keptSchema⟩ rfl keptSchema_compiles
    (distinctNames_singleton "tag" .required .symbol .forbid) hwraps rfl rfl nofun rfl htree hkeys
  cases hattributes
  have hanswers := hcalls _ (List.mem_cons_of_mem _ List.mem_cons_self) rfl rfl rfl trivial
  obtain ⟨klass, hklass, r, hbuild, hr⟩ := hanswers.instance_
  cases hklass
  exact ⟨r, hbuild, hr⟩

end Session
end RustlyCore
