import Es5.Object.Heap
import Mathlib.Data.List.Nodup

/-!
# Lookups up the prototypes

A lookup that succeeds passes no object twice, so it passes at most as many as there are. A bound on
the objects passed that is at least their number has no effect, even where prototypes form a cycle.

* `Heap.Climbs key v vs p`: up the prototypes of `v`, `vs` ends with the first object that has `p`.
* `Climbs.nodup`: no object is passed twice.
* **`Heap.findWithin_of_size_le`**: a lookup that may pass as many objects as there are misses none.
-/

namespace Es5.Heap

variable {κ : Type} {h : Heap κ} {key : String} {v : Value} {vs : List Value} {p : Property}

/-- From `v` up the prototypes, `vs` are the objects up to the first that has `key`, with `p`. -/
inductive Climbs (h : Heap κ) (key : String) : Value → List Value → Property → Prop where
  | here {v : Value} {p : Property} (hp : h.own? v key = some p) : Climbs h key v [v] p
  | up {v proto : Value} {vs : List Value} {p : Property} (hown : h.own? v key = none)
      (hproto : h.prototype? v = some proto) (hvs : Climbs h key proto vs p) :
      Climbs h key v (v :: vs) p

theorem findWithin_eq_some_iff : ∀ {fuel : Nat} {v : Value},
    h.findWithin key fuel v = some p ↔ ∃ vs, h.Climbs key v vs p ∧ vs.length ≤ fuel
  | 0, v => by
    constructor
    · intro hp
      cases hp
    · rintro ⟨vs, hvs, hlen⟩
      cases hvs with
      | here => simp at hlen
      | up => simp at hlen
  | fuel + 1, v => by
    rw [findWithin]
    constructor
    · intro hp
      cases hown : h.own? v key with
      | some q =>
        rw [hown] at hp
        cases hp
        exact ⟨[v], .here hown, by simp⟩
      | none =>
        rw [hown] at hp
        cases hproto : h.prototype? v with
        | none =>
          rw [hproto] at hp
          cases hp
        | some proto =>
          rw [hproto] at hp
          obtain ⟨vs, hvs, hlen⟩ := findWithin_eq_some_iff.mp hp
          exact ⟨v :: vs, .up hown hproto hvs, Nat.succ_le_succ hlen⟩
    · rintro ⟨vs, hvs, hlen⟩
      cases hvs with
      | here hp => rw [hp]
      | up hown hproto hvs =>
        rw [hown, hproto]
        exact findWithin_eq_some_iff.mpr ⟨_, hvs, Nat.le_of_succ_le_succ hlen⟩

namespace Climbs

/-- The objects passed are determined by the first. -/
theorem unique {us : List Value} {q : Property} (hvs : h.Climbs key v vs p)
    (hus : h.Climbs key v us q) : vs = us := by
  induction hvs generalizing us with
  | here hp =>
    cases hus with
    | here _ => rfl
    | up hown => cases hp.symm.trans hown
  | up hown hproto _ ih =>
    cases hus with
    | here hp => cases hp.symm.trans hown
    | up _ hproto' hus =>
      cases hproto.symm.trans hproto'
      rw [ih hus]

/-- The lookup goes on from each object passed. -/
theorem of_mem (hvs : h.Climbs key v vs p) {u : Value} (hu : u ∈ vs) :
    ∃ us, us.length ≤ vs.length ∧ h.Climbs key u us p := by
  induction hvs with
  | here hp =>
    rw [List.mem_singleton.mp hu]
    exact ⟨_, Nat.le_refl _, .here hp⟩
  | up hown hproto hvs ih =>
    rcases List.mem_cons.mp hu with rfl | hmem
    · exact ⟨_, Nat.le_refl _, .up hown hproto hvs⟩
    · obtain ⟨us, hlen, hus⟩ := ih hmem
      exact ⟨us, Nat.le_succ_of_le hlen, hus⟩

/-- No object is passed twice: from its second place the lookup would be shorter. -/
theorem nodup (hvs : h.Climbs key v vs p) : vs.Nodup := by
  induction hvs with
  | here => exact List.nodup_singleton _
  | @up v proto vs p hown hproto hvs ih =>
    refine List.nodup_cons.mpr ⟨fun hmem => ?_, ih⟩
    obtain ⟨us, hlen, hus⟩ := hvs.of_mem hmem
    have hsame : v :: vs = us := (Climbs.up hown hproto hvs).unique hus
    rw [← hsame, List.length_cons] at hlen
    omega

theorem exists_record (hvs : h.Climbs key v vs p) : ∀ u ∈ vs, ∃ r < h.size, u = .object r := by
  have hobject : ∀ {u : Value} {o : ObjectRecord κ}, h.record? u = some o →
      ∃ r < h.size, u = .object r := fun {u o} ho => by
    cases u with
    | object r => exact ⟨r, (Array.getElem?_eq_some_iff.mp ho).1, rfl⟩
    | _ => cases ho
  intro u hu
  obtain ⟨us, -, hus⟩ := hvs.of_mem hu
  cases hus with
  | here hp =>
    obtain ⟨o, ho, -⟩ := Option.bind_eq_some_iff.mp hp
    exact hobject ho
  | up _ hproto _ =>
    obtain ⟨o, ho, -⟩ := Option.bind_eq_some_iff.mp hproto
    exact hobject ho

theorem length_le_size (hvs : h.Climbs key v vs p) : vs.length ≤ h.size := by
  have hsubset : vs ⊆ (List.range h.size).map Value.object := fun u hu => by
    obtain ⟨r, hr, rfl⟩ := hvs.exists_record u hu
    exact List.mem_map_of_mem (List.mem_range.mpr hr)
  have hlen := List.Nodup.length_le_of_subset hvs.nodup hsubset
  rwa [List.length_map, List.length_range] at hlen

end Climbs

theorem find?_of_own? (hp : h.own? v key = some p) : h.find? v key = some p :=
  findWithin_eq_some_iff.mpr ⟨[v], .here hp, (Climbs.here hp).length_le_size⟩

/-- **A lookup that may pass as many objects as there are misses none.** -/
theorem findWithin_of_size_le {fuel : Nat} (hfuel : h.size ≤ fuel) (v : Value) :
    h.findWithin key fuel v = h.find? v key := by
  refine Option.ext fun p => ?_
  rw [find?, findWithin_eq_some_iff, findWithin_eq_some_iff]
  constructor
  · rintro ⟨vs, hvs, -⟩
    exact ⟨vs, hvs, hvs.length_le_size⟩
  · rintro ⟨vs, hvs, hlen⟩
    exact ⟨vs, hvs, Nat.le_trans hlen hfuel⟩

end Es5.Heap
