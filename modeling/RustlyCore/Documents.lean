import RustlyCore.Modes
import RustlyCore.Rebuild

/-!
# One document, two routes

A document builds the same instance as JSON text and as a Ruby Hash, but for the order of entries: a
map keeps the order of its source, and the two sources need not list the keys alike.
-/

namespace RustlyCore

open Fallible (Returns)

/-! ## Equal values -/

mutual
/-- The entries of Hashes, at any depth, may be in another order. -/
inductive Alike : RubyValue → RubyValue → Prop
  | refl (r : RubyValue) : Alike r r
  | array (basic : RBasic) {items items' : List RubyValue} :
    List.Forall₂ Alike items items' → Alike (.array basic items) (.array basic items')
  | hash (basic : RBasic) {entries middle entries' : List (RubyValue × RubyValue)} :
    List.Forall₂ AlikeEntry entries middle → middle.Perm entries' →
    Alike (.hash basic entries) (.hash basic entries')

inductive AlikeEntry : RubyValue × RubyValue → RubyValue × RubyValue → Prop
  | mk (key : RubyValue) {value value' : RubyValue} :
    Alike value value' → AlikeEntry (key, value) (key, value')
end

theorem Alike.deepFreeze {r r' : RubyValue} (h : Alike r r') :
    Alike r.deepFreeze r'.deepFreeze := by
  induction r generalizing r' with
  | array basic items ih =>
    cases h with
    | refl => exact .refl _
    | array _ hitems =>
      rw [RubyValue.deepFreeze, RubyValue.deepFreeze, RubyValue.deepFreezeItems_eq_map,
        RubyValue.deepFreezeItems_eq_map]
      refine .array _ (List.forall₂_map_left_iff.2 (List.forall₂_map_right_iff.2
        (forall₂_imp_mem hitems ?_)))
      intro r hr r' _ h
      exact ih r hr h
  | hash basic entries ih =>
    cases h with
    | refl => exact .refl _
    | hash _ hentries hperm =>
      rw [RubyValue.deepFreeze, RubyValue.deepFreeze, RubyValue.deepFreezeEntries_eq_map,
        RubyValue.deepFreezeEntries_eq_map]
      refine .hash _ (List.forall₂_map_left_iff.2 (List.forall₂_map_right_iff.2
        (forall₂_imp_mem hentries ?_))) (hperm.map _)
      intro p hp q _ h
      cases h with
      | mk key h => exact .mk _ ((ih _ hp).2 h)
  | _ =>
    cases h
    exact .refl _

theorem Alike.frozenAs {r r' : RubyValue} (freezeMode : FreezeMode) (h : Alike r r') :
    Alike (frozenAs freezeMode r) (RustlyCore.frozenAs freezeMode r') := by
  cases freezeMode with
  | none => exact h
  | deep => exact h.deepFreeze
  | shallow =>
    cases h with
    | refl => exact .refl _
    | array _ hitems => exact .array _ hitems
    | hash _ hentries hperm => exact .hash _ hentries hperm

/-! ## Writes in another order -/

section
variable {S : String × OwnedValue → String × RubyValue → Prop} (hnames : ∀ p w, S p w → p.1 = w.1)
  {map map' : OwnedDict} {writes writes' : List (String × RubyValue)}
include hnames

end

variable {x : Externals} {freezeMode : FreezeMode} {w w' : OwnedValue} {r r' : RubyValue}

section
variable {planNames names : List String} {fields fields' : List (Option OwnedValue)}
  {extras extras' : Option OwnedDict} {plan : MaterializePlan} {klass : String}
  {storeAttributes : Bool} {built built' : RubyValue}

end

/-! ## The two routes -/

/-- What the two routes read. -/
theorem SameContent.reads {compiled : CompiledSchema} {text : String} {d : Document} {map : JsonMap}
    {basic : RBasic} {entries : List (RubyValue × RubyValue)}
    (hsame : SameContent d (.hash basic entries)) (hread : ReadAs d (.object map))
    (hnul : Text.containsNul text = false) (hparse : x.fromStr text = .ok (.object map))
    (hfits : d.Fits) (hplain : d.Plain) (hmode : compiled.options.inputMode = .auto) :
    compiled.Reads x (.utf8Str text) (.fromJson (.object map)) ∧
      ∃ v, compiled.Reads x (.hash basic entries) v ∧ Reordered (.fromJson (.object map)) v := by
  have htext : prepareInput (.utf8Str text) .auto = .ok (.json text) := by
    simp only [prepareInput, prepareJson, RubyValue.utf8Str, stringToOwned]
    rw [if_neg (by simpa [Text.containsNul] using hnul), Text.fromUtf8Lossy_toUTF8]
    rfl
  obtain ⟨v, hv, hreordered⟩ := hsame.routes.of_fits hfits
  have hhash : prepareInput (.hash basic entries) .auto = .ok (.owned v) := by
    change convertOwned _ = _
    rw [convertOwned, hv]
    rfl
  refine ⟨⟨_, hmode ▸ htext, ?_⟩, v, ⟨_, hmode ▸ hhash, rfl⟩, (hreordered _ hread).2 hplain⟩
  rw [PreparedInput.value, hparse]
  rfl

end RustlyCore
