import RustlyCore.Roundtrip
import RustlyCore.Validation.Order

/-!
# Building again from the attributes

An instance that keeps its attributes keeps an input of itself: `@attributes` validates, strict or
not, and the instance is built again from it. Freezing does not matter, but the keys of dicts do: of
two entries under one key the Hash has one.
-/

namespace RustlyCore

variable {x : Externals} {freezeMode : FreezeMode}

/-! ## Names of an output -/

theorem OwnedValue.DistinctKeys.namesApart {v : OwnedValue} (h : v.DistinctKeys) :
    v.NamesApart := by
  induction h with
  | null => exact .null
  | bool b => exact .bool b
  | int i => exact .int i
  | float f => exact .float f
  | string s => exact .string s
  | symbol s => exact .symbol s
  | list _ ih => exact .list ih
  | dict hkeys _ ih => exact .dict hkeys ih

variable {o : ValidationOptions} {e : TypeExpr} {root : Bool} {v w : OwnedValue}

/-- Extras are entries of the input. -/
theorem ConvExtras.namesApart {extra : ExtraBehavior} {names : List String} {map : OwnedDict}
    {extras : Option OwnedDict} (h : ConvExtras extra (unknownEntries names map) extras)
    (hkeys : (map.map (·.1)).Nodup) (hv : ∀ p ∈ map, p.2.DistinctKeys) :
    ((extras.getD []).map (·.1)).Nodup ∧ ∀ p ∈ extras.getD [], p.2.NamesApart := by
  cases extras with
  | none => exact ⟨.nil, nofun⟩
  | some unknown =>
    obtain rfl := h.subset unknown rfl
    have hsublist : (unknownEntries names map).Sublist map := List.filter_sublist
    refine ⟨hkeys.sublist (hsublist.map _), ?_⟩
    intro p hp
    exact (hv p (hsublist.subset hp)).namesApart

/-- The names of an output are names of fields and keys of the input. -/
theorem Conv.namesApart (hd : e.DistinctNames) (hv : v.DistinctKeys) (h : Conv o e root v w) :
    w.NamesApart := by
  induction hd generalizing root v w with
  | primitive p =>
    cases p with
    | any =>
      rw [show w = v from h]
      exact hv.namesApart
    | bool => obtain ⟨b, -, rfl⟩ := h; exact .bool b
    | int c => obtain ⟨i, -, -, rfl⟩ := h; exact .int i
    | float c => obtain ⟨f, -, -, rfl⟩ := h; exact .float f
    | string c => obtain ⟨s, -, -, rfl⟩ := h; exact .string s
    | symbol => obtain ⟨s, -, rfl⟩ := h; exact .symbol s
  | enum => obtain ⟨s, -, -, rfl⟩ := h; exact .symbol s
  | optional _ ih =>
    rcases h with ⟨-, rfl⟩ | ⟨-, h⟩
    · exact .null
    · exact ih hv h
  | list _ ih =>
    obtain ⟨items, outs, rfl, rfl, hall, -⟩ := h
    cases hv with
    | list hv =>
      apply OwnedValue.NamesApart.list
      intro w hw
      obtain ⟨v, hmem, h⟩ := forall₂_mem_right hall w hw
      exact ih (hv v hmem) h
  | dict _ ih =>
    obtain ⟨map, outs, rfl, rfl, hall, -⟩ := h
    cases hv with
    | dict hkeys hv =>
      refine .dict (keys_eq hall ▸ hkeys) ?_
      intro q hq
      obtain ⟨p, hmem, h⟩ := forall₂_mem_right hall q hq
      exact ih (hv p hmem) h.2
  | struct hnames _ ih =>
    obtain ⟨map, values, extras, rfl, rfl, hfields, hextras⟩ := h
    cases hv with
    | dict hkeys hv =>
      obtain ⟨hapart, hvalues⟩ := hextras.namesApart hkeys hv
      refine .struct hnames ?_ hapart hvalues
      intro w hw
      obtain ⟨f, hf, hfield⟩ := forall₂_mem_right (convFields_iff.1 hfields) _ hw
      rcases hfield with ⟨v, _, hfirst, heq, h⟩ | ⟨-, heq, -⟩
      · cases heq
        exact ih f hf (hv _ hfirst.mem) h
      · cases heq

/-! ## Frozen values are read alike -/

theorem SameKey.deepFreeze {key : String} {r : RubyValue} (h : SameKey key r) :
    SameKey key r.deepFreeze := by
  cases h with
  | string basic key => exact .string _ key
  | symbol key => exact .symbol key

theorem Image.deepFreeze {r : RubyValue} (h : Image r v) : Image r.deepFreeze v := by
  induction r generalizing v with
  | array basic items ih =>
    cases h with
    | array _ hitems =>
      rw [RubyValue.deepFreeze, RubyValue.deepFreezeItems_eq_map]
      refine .array _ (List.forall₂_map_left_iff.2 (forall₂_imp_mem hitems ?_))
      intro r hr v _ himage
      exact ih r hr himage
  | hash basic entries ih =>
    cases h with
    | hash _ hentries =>
      rw [RubyValue.deepFreeze, RubyValue.deepFreezeEntries_eq_map]
      refine .hash _ (List.forall₂_map_left_iff.2 (forall₂_imp_mem hentries ?_))
      intro p hp q _ hentry
      cases hentry with
      | mk hsame himage => exact .mk hsame.deepFreeze ((ih _ hp).2 himage)
  | string =>
    cases h with
    | string basic s => exact .string _ s
  | object => cases h
  | _ => exact h

theorem Image.frozenAs {r : RubyValue} (h : Image r v) : Image (frozenAs freezeMode r) v := by
  cases freezeMode with
  | none => exact h
  | deep => exact h.deepFreeze
  | shallow =>
    cases h with
    | string basic s => exact .string _ s
    | array _ hitems => exact .array _ hitems
    | hash _ hentries => exact .hash _ hentries
    | nil => exact .nil
    | bool b => exact .bool b
    | integer i => exact .integer i
    | float f => exact .float f
    | symbol s => exact .symbol s

/-! ## The attributes are read back -/

/-- A named value and what is read back as its input. -/
def ReadBackAs (p : String × OwnedValue) (w : String × RubyValue) : Prop :=
  p.1 = w.1 ∧ Image w.2 p.2.asInput

theorem StoredAs.readBackAs {p : String × OwnedValue} {w : String × RubyValue}
    (h : StoredAs x freezeMode p w) (hd : p.2.NamesApart) : ReadBackAs p w := by
  obtain ⟨hname, hstored⟩ := h
  obtain ⟨rubyValue, hconverted, hstored⟩ := Fallible.bind_eq_ok.1 hstored
  have himage := image_of_ownedValueToRuby hd hconverted
  refine ⟨hname, ?_⟩
  rw [← Except.ok.inj hstored]
  split
  · exact himage.deepFreeze
  · exact himage

theorem imageEntries_of_readBack {key : String → AttributeKey} (hkey : ∀ s, (key s).name = s)
    {map : OwnedDict} {writes : List (String × RubyValue)}
    (h : List.Forall₂ ReadBackAs map writes) :
    List.Forall₂ ImageEntry
      ((writes.map (Prod.map key id)).map fun w => (w.1.toRuby.freeze, w.2))
      (map.map fun p => (p.1, p.2.asInput)) := by
  rw [List.map_map, List.forall₂_map_left_iff, List.forall₂_map_right_iff]
  refine h.flip.imp ?_
  rintro w p ⟨hname, himage⟩
  have hsame := (key w.1).sameKey_name
  rw [hkey] at hsame
  exact .mk (hname ▸ hsame) himage

/-- The attributes are read back as the dict that the struct is as an input. -/
theorem image_of_writtenAttributes {names : List String} {values : List (Option OwnedValue)}
    {extras : Option OwnedDict} {fieldWrites extraWrites : List (String × RubyValue)}
    (hd : (OwnedValue.struct ⟨names, values, extras⟩).NamesApart)
    (hfields : List.Forall₂ (StoredAs x freezeMode) (presentFields names values) fieldWrites)
    (hextras : List.Forall₂ (StoredAs x freezeMode) (extras.getD []) extraWrites) :
    Image (writtenAttributes freezeMode fieldWrites extraWrites)
      (OwnedValue.struct ⟨names, values, extras⟩).asInput := by
  cases hd with
  | struct hnames hvalues hapart hextra =>
    have hfieldsBack : List.Forall₂ ReadBackAs (presentFields names values) fieldWrites := by
      apply forall₂_imp_mem hfields
      intro p hp w _ hstored
      exact hstored.readBackAs (hvalues p.2 (List.of_mem_zip (mem_presentFields.1 hp)).2)
    have hextrasBack : List.Forall₂ ReadBackAs (extras.getD []) extraWrites := by
      apply forall₂_imp_mem hextras
      intro p hp w _ hstored
      exact hstored.readBackAs (hextra p hp)
    have hfieldKeys : (fieldWrites.map (·.1)).Nodup := by
      rw [← map_eq_of_forall₂ hfieldsBack fun _ _ h => h.1]
      exact hnames.sublist (presentFields_keys_sublist names values)
    have hextraKeys : (extraWrites.map (·.1)).Nodup := by
      rw [← map_eq_of_forall₂ hextrasBack fun _ _ h => h.1]
      exact hapart
    rw [writtenAttributes, OwnedValue.asInput, asInputFields_eq_map, asInputExtras_eq_map]
    apply Image.frozenAs
    apply Image.hash
    rw [setAll_new (attributeWrites_nodup hfieldKeys hextraKeys) (by simp), List.nil_append,
      attributeWrites, List.map_append]
    apply List.rel_append
    · exact imageEntries_of_readBack (fun _ => rfl) hfieldsBack
    · exact imageEntries_of_readBack (fun _ => rfl) hextrasBack

/-! ## Building again -/

/-- In the other modes a Hash is converted. -/
theorem Image.prepared_dict {r : RubyValue} {map : OwnedDict} (h : Image r (.dict map))
    {mode : InputMode} (hmode : mode ≠ .json) : prepareInput r mode = .ok (.owned (.dict map)) := by
  cases h with
  | hash basic hentries =>
    have hprepared := (Image.hash basic hentries).prepared_hash
    cases mode with
    | json => exact absurd rfl hmode
    | auto | ruby => exact hprepared

/-- Only a struct is materialised. -/
theorem materializeInstance_struct {klass : String} {attrIvar : Option String} {root : OwnedValue}
    {plan : MaterializePlan} {storeAttributes : Bool} {built : RubyValue}
    (h : materializeInstance x klass attrIvar root plan freezeMode storeAttributes = .ok built) :
    ∃ structure_, root = .struct structure_ := by
  cases root with
  | struct structure_ => exact ⟨structure_, rfl⟩
  | _ => cases h

/-- What is built depends on what the input validates to. -/
theorem CompiledSchema.Validates.build_eq {compiled : CompiledSchema} {input : RubyValue}
    {w : OwnedValue} (h : compiled.Validates x input w) (klass : String) :
    build x compiled input klass = (do
      match ← Fallible.attempt (materializeInstance x klass attrIvarName w compiled.plan
          compiled.options.freeze compiled.options.storeAttributes) with
      | .ok instance_ => return instance_
      | .error error => raiseValidationError (errorSetFromMaterializeError error)) := by
  obtain ⟨prepared, hprepared, hresult⟩ := h
  simp only [build, hprepared, Fallible.attempt_ok, Fallible.ok_bind, validateNoGvl, hresult]
  rfl

/-- A schema of one field. -/
theorem distinctNames_singleton (name : String) (presence : StructFieldPresence) (p : PrimitiveType)
    (extra : ExtraBehavior) :
    SchemaIr.DistinctNames (buildIr (.struct [⟨name, presence, .primitive p⟩] extra)) := by
  intro id fields extra' hget
  have hmem := List.mem_of_getElem? hget
  change _ ∈ [Node.primitive p, .struct [⟨name, presence, NodeId.new 0⟩] extra] at hmem
  simp only [List.mem_cons, reduceCtorEq, Node.struct.injEq, List.not_mem_nil, or_false,
    false_or] at hmem
  rw [hmem.1]
  exact List.nodup_singleton _

/-- The compiled options, but for whether they are strict. -/
def CompiledSchema.withStrict (compiled : CompiledSchema) (strict : Bool) : CompiledSchema :=
  { compiled with options := { compiled.options with strict := strict } }

/-- The attributes of an instance validate to what it was built from. -/
theorem attributes_validate {schemaAst opts : RubyValue} {compiled : CompiledSchema}
    (hcompile : compile x schemaAst opts = .ok compiled) (hd : compiled.ir.DistinctNames)
    (hwraps : ¬ (compiled.ir.unfold compiled.ir.root).WrapsFields)
    (hstore : compiled.options.storeAttributes = true) (hmode : compiled.options.inputMode ≠ .json)
    {input : RubyValue} (hinput : ∀ v, compiled.Reads x input v → v.DistinctKeys)
    {klass : String} {built : RubyValue} (hbuild : build x compiled input klass = .ok built) :
    ∃ attributes w, built.ivar "@attributes" = some attributes ∧ compiled.Validates x input w ∧
      ∀ strict, (compiled.withStrict strict).Validates x attributes w := by
  obtain ⟨w, hvalid, hbuilt⟩ := build_ok_iff.1 hbuild
  obtain ⟨⟨names, values, extras⟩, rfl⟩ := materializeInstance_struct hbuilt
  obtain ⟨prepared, hprepared, hw⟩ := id hvalid
  obtain ⟨v, hv, haccepts⟩ := validatePreparedInput_accepts_iff.1 hw
  have hkeys := hinput v ⟨prepared, hprepared, hv⟩
  have hprep : v.Prepared := prepareInput_value hprepared hv
  have hnames := hd.unfold compiled.ir.root_lt
  have hconv := (compiled.ir.accepts_iff).1 haccepts
  obtain ⟨map, rfl, hroot, hpresent⟩ := hconv.struct_inv hprep
  have hapart := hconv.namesApart hnames hkeys
  -- the instance as a run of writes
  have hentries : compiled.plan.entries = names.map .named := by
    rw [compile_plan hcompile, TypeExpr.plannedNames_eq hroot hwraps]
  have hnodup : names.Nodup := by
    cases hapart with
    | struct hnodup => exact hnodup
  obtain ⟨fieldWrites, extraWrites, hfields, hextras, hivars⟩ :=
    materializeInstance_writes hentries hnodup hpresent.length_eq.symm hbuilt
  have himage := image_of_writtenAttributes hapart hfields hextras
  refine ⟨writtenAttributes compiled.options.freeze fieldWrites extraWrites, _, ?_, hvalid, ?_⟩
  · rw [hivars, ivarWrites, if_pos hstore, ivarStore.setAll_append]
    change (ivarSet _ "@attributes" _).lookup "@attributes" = _
    rw [lookup_ivarSet, if_pos rfl]
  · intro strict
    refine ⟨_, himage.prepared_dict hmode, validatePreparedInput_accepts_iff.2 ⟨_, rfl, ?_⟩⟩
    refine (compiled.ir.accepts_iff).2 (Conv.again hnames ?_ hprep hconv)
    rfl

/-- What a build returns that keeps attributes, unless the root is an optional: the attributes are
an input that validates to the same, strict or not, and of any class the same is built from them. -/
theorem attributes_rebuild {schemaAst opts : RubyValue} {compiled : CompiledSchema}
    (hcompile : compile x schemaAst opts = .ok compiled) (hd : compiled.ir.DistinctNames)
    (hwraps : ¬ (compiled.ir.unfold compiled.ir.root).WrapsFields)
    (hstore : compiled.options.storeAttributes = true) (hmode : compiled.options.inputMode ≠ .json)
    {input : RubyValue} (hinput : ∀ v, compiled.Reads x input v → v.DistinctKeys)
    {klass : String} {built : RubyValue} (hbuild : build x compiled input klass = .ok built) :
    ∃ attributes, built.ivar "@attributes" = some attributes ∧ ∀ strict,
      validate x (compiled.withStrict strict) attributes .nil = .ok .valid ∧
        ∀ klass', build x (compiled.withStrict strict) attributes klass' =
          build x compiled input klass' := by
  obtain ⟨attributes, w, hattributes, hvalid, hagain⟩ :=
    attributes_validate hcompile hd hwraps hstore hmode hinput hbuild
  refine ⟨attributes, hattributes, fun strict => ⟨validate_valid_iff.2 ⟨w, hagain strict⟩, ?_⟩⟩
  intro klass'
  rw [(hagain strict).build_eq, hvalid.build_eq]
  rfl

/-- A record with one flag is built again, strictly and of another class. -/
theorem attributes_rebuild_admin : ∃ built attributes : RubyValue,
    built.ivar "@attributes" = some attributes ∧
      build (flagExternals "admin") ((flagSchema "admin").withStrict true) attributes "Admin" =
        build (flagExternals "admin") (flagSchema "admin") (flagInput "admin") "Admin" := by
  obtain ⟨built, hbuilt⟩ := flag_builds "admin"
  have hroot : (flagSchema "admin").ir.arena.get (flagSchema "admin").ir.root =
    some (.struct [⟨"admin", .required, .new 0⟩] .forbid) := rfl
  have hreads : (flagSchema "admin").Reads (flagExternals "admin") (flagInput "admin")
      (.dict [("admin", .bool true)]) := ⟨_, flag_reads "admin", rfl⟩
  have hinput (v : OwnedValue)
      (hv : (flagSchema "admin").Reads (flagExternals "admin") (flagInput "admin") v) :
      v.DistinctKeys := by
    rw [hv.unique hreads]
    exact .dict (List.nodup_singleton _) (List.forall_mem_singleton.2 (.bool true))
  have hwraps : ¬ ((flagSchema "admin").ir.unfold (flagSchema "admin").ir.root).WrapsFields := by
    rw [SchemaIr.unfold_of_get hroot]
    exact id
  obtain ⟨attributes, hattributes, hagain⟩ :=
    attributes_rebuild (flagSchema_compiles (by decide) (by decide) rfl)
      (distinctNames_singleton "admin" .required .bool .forbid) hwraps rfl nofun hinput hbuilt
  exact ⟨built, attributes, hattributes, (hagain true).2 "Admin"⟩

end RustlyCore
