import Mathlib.Data.List.Nodup
import RustlyCore.Lib.Pointwise
import RustlyCore.Validation.Relation

/-!
# The order of entries

`Reordered v v'`: `v'` is `v` with the entries of dicts, at any depth, in another order. Validations
of such values find the same, in another order, and their outputs are reordered the same way.
-/

namespace RustlyCore

mutual
/-- Structs keep the order of their fields; their extras are entries. -/
def Reordered : OwnedValue → OwnedValue → Prop
  | .list items, w => ∃ items', w = .list items' ∧ ReorderedItems items items'
  | .dict entries, w => ∃ middle entries', w = .dict entries' ∧
    ReorderedEntries entries middle ∧ middle.Perm entries'
  | .struct ⟨names, fields, extras⟩, w => ∃ fields' extras', w = .struct ⟨names, fields', extras'⟩ ∧
    ReorderedFields fields fields' ∧ ReorderedExtras extras extras'
  | .null, w => w = .null
  | .bool b, w => w = .bool b
  | .int i, w => w = .int i
  | .float f, w => w = .float f
  | .string s, w => w = .string s
  | .symbol s, w => w = .symbol s

def ReorderedItems : List OwnedValue → List OwnedValue → Prop
  | [], [] => True
  | v :: vs, w :: ws => Reordered v w ∧ ReorderedItems vs ws
  | _, _ => False

/-- The same keys in the same order, with reordered values. -/
def ReorderedEntries : OwnedDict → OwnedDict → Prop
  | [], [] => True
  | (key, v) :: vs, (key', w) :: ws => (key = key' ∧ Reordered v w) ∧ ReorderedEntries vs ws
  | _, _ => False

def ReorderedFields : List (Option OwnedValue) → List (Option OwnedValue) → Prop
  | [], [] => True
  | some v :: vs, some w :: ws => Reordered v w ∧ ReorderedFields vs ws
  | none :: vs, none :: ws => ReorderedFields vs ws
  | _, _ => False

def ReorderedExtras : Option OwnedDict → Option OwnedDict → Prop
  | some entries, some entries' => ∃ middle, ReorderedEntries entries middle ∧ middle.Perm entries'
  | none, none => True
  | _, _ => False
end

variable {v v' : OwnedValue}

theorem reorderedItems_iff {items items' : List OwnedValue} :
    ReorderedItems items items' ↔ List.Forall₂ Reordered items items' := by
  induction items generalizing items' with
  | nil => cases items' <;> simp [ReorderedItems]
  | cons v items ih => cases items' <;> simp [ReorderedItems, ih]

theorem reorderedEntries_iff {entries entries' : OwnedDict} : ReorderedEntries entries entries' ↔
    List.Forall₂ (fun p q => p.1 = q.1 ∧ Reordered p.2 q.2) entries entries' := by
  induction entries generalizing entries' with
  | nil => cases entries' <;> simp [ReorderedEntries]
  | cons p entries ih =>
    obtain ⟨key, v⟩ := p
    cases entries' with
    | nil => simp [ReorderedEntries]
    | cons q entries' =>
      obtain ⟨key', w⟩ := q
      simp [ReorderedEntries, ih]

theorem reorderedFields_iff {fields fields' : List (Option OwnedValue)} :
    ReorderedFields fields fields' ↔ List.Forall₂ (Option.Rel Reordered) fields fields' := by
  induction fields generalizing fields' with
  | nil => cases fields' <;> simp [ReorderedFields]
  | cons f fields ih =>
    cases fields' with
    | nil => cases f <;> simp [ReorderedFields]
    | cons f' fields' => cases f <;> cases f' <;> simp [ReorderedFields, ih]

theorem reorderedExtras_iff {extras extras' : Option OwnedDict} : ReorderedExtras extras extras' ↔
    Option.Rel (fun entries entries' => ∃ middle, ReorderedEntries entries middle ∧
      middle.Perm entries') extras extras' := by
  cases extras <;> cases extras' <;> simp [ReorderedExtras]

theorem reordered_list_iff {items items' : List OwnedValue} :
    Reordered (.list items) (.list items') ↔ List.Forall₂ Reordered items items' := by
  rw [Reordered, ← reorderedItems_iff]
  constructor
  · intro h
    obtain ⟨_, heq, h⟩ := h
    exact OwnedValue.list.inj heq ▸ h
  · exact fun h => ⟨items', rfl, h⟩

theorem Reordered.list {items items' : List OwnedValue} (h : List.Forall₂ Reordered items items') :
    Reordered (.list items) (.list items') :=
  reordered_list_iff.2 h

theorem Reordered.dict {entries middle entries' : OwnedDict}
    (h : List.Forall₂ (fun p q => p.1 = q.1 ∧ Reordered p.2 q.2) entries middle)
    (hp : middle.Perm entries') : Reordered (.dict entries) (.dict entries') := by
  rw [Reordered]
  exact ⟨middle, entries', rfl, reorderedEntries_iff.2 h, hp⟩

theorem Reordered.struct {names : List String} {fields fields' : List (Option OwnedValue)}
    {extras extras' : Option OwnedDict} (h : List.Forall₂ (Option.Rel Reordered) fields fields')
    (hx : ReorderedExtras extras extras') :
    Reordered (.struct ⟨names, fields, extras⟩) (.struct ⟨names, fields', extras'⟩) := by
  rw [Reordered]
  exact ⟨fields', extras', rfl, reorderedFields_iff.2 h, hx⟩

/-- Entries under distinct keys, in two orders. -/
theorem reordered_dict_iff {entries middle written entries' : OwnedDict}
    (hp : entries.Perm middle) (hp' : written.Perm entries')
    (hkeys : middle.map (·.1) = written.map (·.1)) (hd : (middle.map (·.1)).Nodup) :
    Reordered (.dict entries) (.dict entries') ↔
      List.Forall₂ (fun p q => p.1 = q.1 ∧ Reordered p.2 q.2) middle written := by
  constructor
  · intro h
    rw [Reordered] at h
    obtain ⟨middle', _, heq, h, hmiddle⟩ := h
    cases heq
    obtain ⟨written', hall, hwritten⟩ := List.perm_comp_forall₂ hp.symm (reorderedEntries_iff.1 h)
    have hkeys' : middle.map (·.1) = written'.map (·.1) := map_eq_of_forall₂ hall fun _ _ h => h.1
    have hperm : written'.Perm written := hwritten.trans (hmiddle.trans hp'.symm)
    rwa [eq_of_perm_of_keys hperm (hkeys'.symm.trans hkeys) (hkeys' ▸ hd)] at hall
  · intro h
    obtain ⟨middle', hall, hmiddle⟩ := List.perm_comp_forall₂ hp h
    exact .dict hall (hmiddle.trans hp')

theorem Reordered.refl (v : OwnedValue) : Reordered v v := by
  induction v with
  | list items ih => exact .list (List.forall₂_same.2 ih)
  | dict entries ih => exact .dict (List.forall₂_same.2 fun p hp => ⟨rfl, ih p hp⟩) (.refl _)
  | struct names fields extras ihf ihx =>
    refine .struct (List.forall₂_same.2 ?_) (reorderedExtras_iff.2 ?_)
    · intro f hf
      cases f with
      | none => exact .none
      | some v => exact .some (ihf v hf)
    · cases extras with
      | none => exact .none
      | some es =>
        have hes : List.Forall₂ (fun p q => p.1 = q.1 ∧ Reordered p.2 q.2) es es :=
          List.forall₂_same.2 fun p hp => ⟨rfl, ihx es rfl p hp⟩
        exact .some ⟨es, reorderedEntries_iff.2 hes, .refl _⟩
  | _ => rw [Reordered]

/-- No dict has two entries under one key, at any depth, and there are no structs. -/
inductive OwnedValue.DistinctKeys : OwnedValue → Prop
  | null : DistinctKeys .null
  | bool (b : Bool) : DistinctKeys (.bool b)
  | int (i : Int64) : DistinctKeys (.int i)
  | float (f : Float) : DistinctKeys (.float f)
  | string (s : String) : DistinctKeys (.string s)
  | symbol (s : String) : DistinctKeys (.symbol s)
  | list {items : List OwnedValue} : (∀ v ∈ items, DistinctKeys v) → DistinctKeys (.list items)
  | dict {entries : OwnedDict} : (entries.map (·.1)).Nodup → (∀ p ∈ entries, DistinctKeys p.2) →
    DistinctKeys (.dict entries)

/-- Only lists and dicts are reordered into other values. -/
theorem Reordered.cases (h : Reordered v v') (hd : v.DistinctKeys) : v' = v ∨
    (∃ items items', v = .list items ∧ v' = .list items' ∧ List.Forall₂ Reordered items items') ∨
    ∃ entries middle entries', v = .dict entries ∧ v' = .dict entries' ∧
      List.Forall₂ (fun p q => p.1 = q.1 ∧ Reordered p.2 q.2) entries middle ∧
      middle.Perm entries' := by
  cases hd with
  | list =>
    rw [Reordered] at h
    obtain ⟨items', rfl, hall⟩ := h
    exact .inr (.inl ⟨_, items', rfl, rfl, reorderedItems_iff.1 hall⟩)
  | dict =>
    rw [Reordered] at h
    obtain ⟨middle, entries', rfl, hall, hp⟩ := h
    exact .inr (.inr ⟨_, middle, entries', rfl, rfl, reorderedEntries_iff.1 hall, hp⟩)
  | _ =>
    rw [Reordered] at h
    exact .inl h

/-! ## Lookup in reordered entries -/

theorem mem_iff_dictFind {dict : OwnedDict} (hd : (dict.map (·.1)).Nodup) {key : String}
    {v : OwnedValue} : Validator.dictFind dict key = some v ↔ (key, v) ∈ dict := by
  refine ⟨Validator.mem_of_dictFind, ?_⟩
  intro h
  induction dict with
  | nil => cases h
  | cons entry dict ih =>
    obtain ⟨hnot, hd⟩ := List.nodup_cons.1 hd
    rw [Validator.dictFind_cons]
    rcases List.mem_cons.1 h with rfl | h
    · rw [if_pos rfl]
    · rw [if_neg, ih hd h]
      rintro rfl
      exact hnot (List.mem_map.2 ⟨_, h, rfl⟩)

theorem dictFind_perm {dict dict' : OwnedDict} (hd : (dict.map (·.1)).Nodup) (hp : dict.Perm dict')
    (key : String) : Validator.dictFind dict key = Validator.dictFind dict' key := by
  have hd' : (dict'.map (·.1)).Nodup := (hp.map (·.1)).nodup_iff.1 hd
  ext v
  rw [mem_iff_dictFind hd, mem_iff_dictFind hd', hp.mem_iff]

theorem dictFind_reordered {dict dict' : OwnedDict}
    (h : List.Forall₂ (fun p q => p.1 = q.1 ∧ Reordered p.2 q.2) dict dict') (key : String) :
    Option.Rel Reordered (Validator.dictFind dict key) (Validator.dictFind dict' key) := by
  induction h with
  | nil => exact .none
  | @cons p q _ _ hpq _ ih =>
    rw [Validator.dictFind_cons, Validator.dictFind_cons, hpq.1]
    split
    · exact .some hpq.2
    · exact ih

theorem keys_eq {R : OwnedValue → OwnedValue → Prop} {dict dict' : OwnedDict}
    (h : List.Forall₂ (fun p q => p.1 = q.1 ∧ R p.2 q.2) dict dict') :
    dict.map (·.1) = dict'.map (·.1) := by
  induction h with
  | nil => rfl
  | cons hpq _ ih => rw [List.map_cons, List.map_cons, ih, hpq.1]

/-! ## Verdicts -/

namespace Verdict

/-- The same findings in another order, and the same output reordered. -/
structure Like (a b : Verdict) : Prop where
  findings : a.findings.Perm b.findings
  output : Option.Rel Reordered a.output b.output

theorem Like.under {a b : Verdict} (h : a.Like b) (segment : PathSegment) :
    (a.under segment).Like (b.under segment) :=
  ⟨h.findings.map _, h.output⟩

/-- The outputs that there are. -/
theorem Like.outputs {as bs : List Verdict} (h : List.Forall₂ Like as bs) :
    List.Forall₂ Reordered (as.filterMap (·.output)) (bs.filterMap (·.output)) :=
  List.rel_filterMap (fun _ _ hab => hab.output) h

theorem Like.list {as bs : List Verdict} (c : CollectionConstraints)
    (h : List.Forall₂ Like as bs) : (Verdict.list c as).Like (Verdict.list c bs) := by
  have houts := Like.outputs h
  have hfind (index : Nat) : ((as.zipIdx index).flatMap fun a =>
      Report.under (.index a.2) a.1.findings).Perm
        ((bs.zipIdx index).flatMap fun b => Report.under (.index b.2) b.1.findings) := by
    clear houts
    induction h generalizing index with
    | nil => exact .refl _
    | cons hab _ ih =>
      rw [List.zipIdx_cons, List.zipIdx_cons, List.flatMap_cons, List.flatMap_cons]
      exact (hab.findings.map _).append (ih (index + 1))
  refine ⟨?_, .some (.list houts)⟩
  change List.Perm (_ ++ Report.here (c.violations (as.filterMap (·.output)).length)) _
  rw [houts.length_eq]
  exact (hfind 0).append (.refl _)

/-- The entries of which there is an output. -/
theorem Like.entryOutputs {as bs : List (String × Verdict)}
    (h : List.Forall₂ (fun a b => a.1 = b.1 ∧ a.2.Like b.2) as bs) :
    List.Forall₂ (fun p q => p.1 = q.1 ∧ Reordered p.2 q.2)
      (as.filterMap fun (key, entry) => entry.output.map (key, ·))
      (bs.filterMap fun (key, entry) => entry.output.map (key, ·)) := by
  refine List.rel_filterMap ?_ h
  rintro ⟨key, a⟩ ⟨_, b⟩ ⟨rfl, hab⟩
  -- The key is paired with the output on both sides.
  change Option.Rel _ (a.output.map (key, ·)) (b.output.map (key, ·))
  have hout : Option.Rel Reordered a.output b.output := hab.output
  generalize a.output = w, b.output = w' at hout ⊢
  cases hout with
  | none => exact .none
  | some hw => exact .some ⟨rfl, hw⟩

theorem Like.dict {as ms bs : List (String × Verdict)} (c : CollectionConstraints)
    (h : List.Forall₂ (fun a b => a.1 = b.1 ∧ a.2.Like b.2) as ms) (hp : ms.Perm bs) :
    (Verdict.dict c as).Like (Verdict.dict c bs) := by
  have houts := Like.entryOutputs h
  have hperm := hp.filterMap fun (key, entry) => entry.output.map (key, ·)
  have hfind : (as.flatMap fun (key, a) => Report.under (.key key) a.findings).Perm
      (ms.flatMap fun (key, b) => Report.under (.key key) b.findings) := by
    clear houts hp hperm
    induction h with
    | nil => exact .refl _
    | @cons a b _ _ hab _ ih =>
      obtain ⟨key, a⟩ := a
      obtain ⟨_, b⟩ := b
      obtain ⟨rfl, hab⟩ := hab
      exact (hab.findings.map _).append ih
  refine ⟨?_, .some (.dict houts hperm)⟩
  change List.Perm (_ ++ Report.here (c.violations (as.filterMap _).length)) _
  rw [houts.length_eq, hperm.length_eq]
  exact (hfind.trans (hp.flatMap_right _)).append (.refl _)

theorem Like.struct {names : List String} {fields fields' : List Verdict}
    {extras extras' : Option OwnedDict × Findings} (h : List.Forall₂ Like fields fields')
    (hx : ReorderedExtras extras.1 extras'.1) (hf : extras.2.Perm extras'.2) :
    (Verdict.struct names fields extras).Like (Verdict.struct names fields' extras') := by
  have hfind : (fields.flatMap (·.findings)).Perm (fields'.flatMap (·.findings)) := by
    induction h with
    | nil => exact .refl _
    | cons hab _ ih => simpa using hab.findings.append ih
  refine ⟨hfind.append hf, .some (.struct ?_ hx)⟩
  rw [List.forall₂_map_left_iff, List.forall₂_map_right_iff]
  exact h.imp fun _ _ hab => hab.output

end Verdict

/-! ## Reordered values have like verdicts -/

theorem unknownEntries_reordered (names : List String) {dict middle dict' : OwnedDict}
    (h : List.Forall₂ (fun p q => p.1 = q.1 ∧ Reordered p.2 q.2) dict middle)
    (hp : middle.Perm dict') :
    List.Forall₂ (fun p q => p.1 = q.1 ∧ Reordered p.2 q.2) (unknownEntries names dict)
      (unknownEntries names middle) ∧
    (unknownEntries names middle).Perm (unknownEntries names dict') := by
  refine ⟨?_, hp.filter _⟩
  clear hp
  induction h with
  | nil => exact .nil
  | @cons p q _ _ hpq _ ih =>
    obtain ⟨key, v⟩ := p
    obtain ⟨_, w⟩ := q
    obtain ⟨rfl, hvw⟩ := hpq
    by_cases hkey : key ∈ names
    · rwa [Validator.unknownEntries_cons_field hkey, Validator.unknownEntries_cons_field hkey]
    · rw [Validator.unknownEntries_cons_unknown hkey, Validator.unknownEntries_cons_unknown hkey]
      exact .cons ⟨rfl, hvw⟩ ih

theorem checkExtras_reordered (extra : ExtraBehavior) {unknown middle unknown' : OwnedDict}
    (h : List.Forall₂ (fun p q => p.1 = q.1 ∧ Reordered p.2 q.2) unknown middle)
    (hp : middle.Perm unknown') :
    ReorderedExtras (checkExtras extra unknown).1 (checkExtras extra unknown').1 ∧
      (checkExtras extra unknown).2.Perm (checkExtras extra unknown').2 := by
  cases extra with
  | forbid =>
    have hkeys : (unknown.map (·.1)).Perm (unknown'.map (·.1)) := keys_eq h ▸ hp.map _
    refine ⟨reorderedExtras_iff.2 .none, ?_⟩
    simpa [checkExtras, Function.comp_def] using
      hkeys.map fun key => ([PathSegment.key key], extraKey key)
  | ignore => exact ⟨reorderedExtras_iff.2 .none, .refl _⟩
  | allow =>
    have hlen : unknown.isEmpty = unknown'.isEmpty := by
      rw [Bool.eq_iff_iff, List.isEmpty_iff_length_eq_zero, List.isEmpty_iff_length_eq_zero,
        h.length_eq, hp.length_eq]
    refine ⟨?_, .refl _⟩
    simp only [checkExtras, hlen]
    refine reorderedExtras_iff.2 ?_
    cases unknown'.isEmpty with
    | true => exact .none
    | false => exact .some ⟨middle, reorderedEntries_iff.2 h, hp⟩

theorem checkField_reordered {map map' : OwnedDict} {name : String}
    {presence : StructFieldPresence} {checkType : OwnedValue → Verdict}
    (hfind : Option.Rel Reordered (Validator.dictFind map name) (Validator.dictFind map' name))
    (h : ∀ v v', Validator.dictFind map name = some v → Reordered v v' →
      (checkType v).Like (checkType v')) :
    (checkField map name presence checkType).Like (checkField map' name presence checkType) := by
  simp only [checkField]
  cases hv : Validator.dictFind map name with
  | none =>
    rw [hv] at hfind
    cases hv' : Validator.dictFind map' name with
    | none => exact ⟨.refl _, .none⟩
    | some => rw [hv'] at hfind; cases hfind
  | some v =>
    rw [hv] at hfind
    cases hv' : Validator.dictFind map' name with
    | none => rw [hv'] at hfind; cases hfind
    | some v' =>
      rw [hv'] at hfind
      cases hfind with
      | some hvv' => exact (h v v' hv hvv').under _

theorem Verdict.Like.refl (verdict : Verdict) : verdict.Like verdict := by
  refine ⟨.refl _, ?_⟩
  cases verdict.output with
  | none => exact .none
  | some w => exact .some (.refl w)

theorem check_reordered {o : ValidationOptions} {e : TypeExpr} (root : Bool)
    (hd : v.DistinctKeys) (h : Reordered v v') :
    (check o e root v).Like (check o e root v') := by
  have hsame (finding : Finding) : (Verdict.here none [finding]).Like (.here none [finding]) :=
    .refl _
  induction e generalizing root v v' with
  | primitive p =>
    rcases h.cases hd with rfl | ⟨items, items', rfl, rfl, -⟩ | ⟨entries, _, entries', rfl, rfl, -⟩
    · exact .refl _
    · cases p <;> first | exact hsame _ | exact ⟨.refl _, .some h⟩
    · cases p <;> first | exact hsame _ | exact ⟨.refl _, .some h⟩
  | enum =>
    rcases h.cases hd with rfl | ⟨items, items', rfl, rfl, -⟩ | ⟨entries, _, entries', rfl, rfl, -⟩
    · exact .refl _
    · exact hsame _
    · exact hsame _
  | optional inner ih =>
    rcases h.cases hd with rfl | ⟨items, items', rfl, rfl, -⟩ | ⟨entries, _, entries', rfl, rfl, -⟩
    · exact .refl _
    · simpa only [check] using ih root hd h
    · simpa only [check] using ih root hd h
  | list of c ih =>
    rcases h.cases hd with rfl | ⟨items, items', rfl, rfl, hall⟩ |
      ⟨entries, _, entries', rfl, rfl, -⟩
    · exact .refl _
    · cases hd with
      | list hd =>
        apply Verdict.Like.list c
        rw [List.forall₂_map_left_iff, List.forall₂_map_right_iff]
        exact ((List.forall₂_and_left _ _).2 ⟨hd, hall⟩).imp fun _ _ h => ih false h.1 h.2
    · exact hsame _
  | dict of c ih =>
    rcases h.cases hd with rfl | ⟨items, items', rfl, rfl, -⟩ |
      ⟨entries, middle, entries', rfl, rfl, hall, hp⟩
    · exact .refl _
    · exact hsame _
    · cases hd with
      | dict hnodup hd =>
        refine Verdict.Like.dict c ?_ (hp.map fun entry => (entry.1, check o of false entry.2))
        rw [List.forall₂_map_left_iff, List.forall₂_map_right_iff]
        exact ((List.forall₂_and_left _ _).2 ⟨hd, hall⟩).imp
          fun _ _ h => ⟨h.2.1, ih false h.1 h.2.2⟩
  | struct fields extra ih =>
    rcases h.cases hd with rfl | ⟨items, items', rfl, rfl, -⟩ |
      ⟨entries, middle, entries', rfl, rfl, hall, hp⟩
    · exact .refl _
    · exact hsame _
    · cases hd with
      | dict hnodup hd =>
        have hnodup' : (middle.map (·.1)).Nodup := keys_eq hall ▸ hnodup
        obtain ⟨hunknown, hperm⟩ := unknownEntries_reordered (fields.map (·.name)) hall hp
        obtain ⟨hextras, hfound⟩ := checkExtras_reordered
          (if root then o.extraBehavior else extra) hunknown hperm
        refine Verdict.Like.struct ?_ hextras hfound
        rw [checkFields_eq_map, checkFields_eq_map, List.forall₂_map_left_iff,
          List.forall₂_map_right_iff, List.forall₂_same]
        intro f hf
        refine checkField_reordered ?_ fun v w hfind h =>
          ih f hf false (hd _ (Validator.mem_of_dictFind hfind)) h
        rw [← dictFind_perm hnodup' hp]
        exact dictFind_reordered hall f.name

/-- Results of like verdicts. -/
structure ValidationResult.Like (a b : ValidationResult) : Prop where
  isValid : a.isValid = b.isValid
  issues : a.issues.Perm b.issues
  output : Option.Rel Reordered a.output b.output

theorem Verdict.Like.finish {a b : Verdict} (h : a.Like b) (p : List PathSegment) :
    (Validator.finish a.output (Report.rendered issueAt p a.findings)).Like
      (Validator.finish b.output (Report.rendered issueAt p b.findings)) := by
  have hissues :
      (Report.rendered issueAt p a.findings).Perm (Report.rendered issueAt p b.findings) :=
    h.findings.map _
  have hempty : (Report.rendered issueAt p a.findings).isEmpty =
      (Report.rendered issueAt p b.findings).isEmpty := by
    rw [Bool.eq_iff_iff, List.isEmpty_iff_length_eq_zero, List.isEmpty_iff_length_eq_zero,
      hissues.length_eq]
  simp only [Validator.finish]
  rw [← hempty]
  split
  · exact ⟨hempty, hissues, h.output⟩
  · exact ⟨hempty, hissues, .none⟩

/-- The order of entries does not matter: reordered values are accepted alike, with the same issues
in another order and reordered outputs. -/
theorem reordered_validation (schema : SchemaIr) (o : ValidationOptions) (hd : v.DistinctKeys)
    (h : Reordered v v') : ∃ result result', validateOwned schema v o = some result ∧
      validateOwned schema v' o = some result' ∧ (result.isValid = true ↔ result'.isValid = true) ∧
      result.issues.Perm result'.issues ∧ Option.Rel Reordered result.output result'.output := by
  have hlike : ValidationResult.Like _ _ := (check_reordered (o := o)
    (e := schema.unfold schema.root) true hd h).finish []
  exact ⟨_, _, validateOwned_eq schema v o, validateOwned_eq schema v' o,
    by rw [hlike.isValid], hlike.issues, hlike.output⟩

/-- Two orders of a root dict, with a missing field and two unknown keys. -/
theorem reordered_validation_root :
    let schema := buildIr (.struct [⟨"a", .required, .primitive .bool⟩] .forbid)
    let v := OwnedValue.dict [("b", .null), ("c", .null)]
    let v' := OwnedValue.dict [("c", .null), ("b", .null)]
    ∃ result result', validateOwned schema v {} = some result ∧
      validateOwned schema v' {} = some result' ∧ result.issues.Perm result'.issues := by
  intro schema v v'
  have hd : v.DistinctKeys := .dict (by decide) (by simp [OwnedValue.DistinctKeys.null])
  have h : Reordered v v' :=
    .dict (List.forall₂_same.2 fun p _ => ⟨rfl, .refl p.2⟩) (.swap _ _ _)
  obtain ⟨result, result', hr, hr', -, hissues, -⟩ := reordered_validation schema {} hd h
  exact ⟨result, result', hr, hr', hissues⟩

end RustlyCore
