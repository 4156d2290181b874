import Mathlib.Data.List.AList

/-! # Folding keyed entries into a keyed state

A loop over the entries of a map that touches, for each entry, only the part of
the state under the entry's own key acts on all keys independently. The keys of
a map are distinct, so the order of the entries does not matter and neither do
the entries already folded.
-/

namespace HobbyHash.Library.KeyedFold

open List

variable {K E S V ε : Type} [DecidableEq K] {get : S → K → V} {step : S → (_ : K) × E → Except ε S}
  {good : K → E → V → Prop} {update : K → E → V → V}

/-- One step changes its own key, as `update` says, and no other. -/
def Local (get : S → K → V) (step : S → (_ : K) × E → Except ε S) (good : K → E → V → Prop)
    (update : K → E → V → V) : Prop :=
  ∀ s k e, good k e (get s k) → ∃ s', step s ⟨k, e⟩ = .ok s' ∧ get s' k = update k e (get s k) ∧
    ∀ other, other ≠ k → get s' other = get s other

theorem foldlM_entries (local_ : Local get step good update) {entries : List ((_ : K) × E)}
    (ne : entries.NodupKeys) (allGood : ∀ k e, ⟨k, e⟩ ∈ entries → good k e (get s k)) :
    ∃ s', entries.foldlM step s = .ok s' ∧ ∀ k, get s' k =
      match entries.dlookup k with
      | some e => update k e (get s k)
      | none => get s k := by
  induction entries generalizing s with
  | nil => exact ⟨s, rfl, fun _ => rfl⟩
  | cons head rest ih =>
    obtain ⟨k, e⟩ := head
    obtain ⟨absent, distinctRest⟩ := nodupKeys_cons.mp ne
    obtain ⟨s₁, stepped, here, elsewhere⟩ := local_ s k e (allGood k e mem_cons_self)
    have goodRest : ∀ k' e', ⟨k', e'⟩ ∈ rest → good k' e' (get s₁ k') := by
      intro k' e' mem
      have other : k' ≠ k := by
        rintro rfl
        have inKeys : k' ∈ rest.keys := mem_keys_of_mem mem
        exact absent inKeys
      rw [elsewhere k' other]
      exact allGood k' e' (mem_cons_of_mem _ mem)
    obtain ⟨s', folded, pointwise⟩ := ih distinctRest goodRest
    refine ⟨s', ?_, fun k' => ?_⟩
    · rw [foldlM_cons, stepped]
      exact folded
    rw [pointwise k']
    by_cases same : k' = k
    · subst same
      rw [dlookup_cons_eq, dlookup_eq_none.mpr absent, here]
    · rw [dlookup_cons_ne _ _ same, elsewhere k' same]

theorem foldlM_map (local_ : Local get step good update) (m : AList (fun _ : K => E))
    (allGood : ∀ k e, m.lookup k = some e → good k e (get s k)) :
    ∃ s', m.entries.foldlM step s = .ok s' ∧ ∀ k, get s' k =
      match m.lookup k with
      | some e => update k e (get s k)
      | none => get s k :=
  foldlM_entries local_ m.nodupKeys fun k e mem =>
    allGood k e (mem_dlookup m.nodupKeys mem)

end HobbyHash.Library.KeyedFold
