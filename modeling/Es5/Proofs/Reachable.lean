import Es5.Proofs.AlikeProgram
import Es5.Proofs.Invariant
import Mathlib.Logic.Relation

/-!
# Reachable objects

What an object refers to is what its record names: its prototype, the values, getters and setters of
its properties, its primitive value, and the object that a provided function holds. What is paired
refers to what is paired, so nothing else is reached from there.

* `ObjectRecord.Names`, `Heap.Refers`, `Heap.Reaches`: references, and objects along them.
* **`Heap.Renamed.exists_of_reaches`**: from paired objects only paired ones are reached.
* **`Eval.newRealm_apart`**: a realm is always made, and from it only new objects are reached.
-/

namespace Es5

variable {σ : Type} {β γ : Renaming}

/-- The values that a property names. -/
def Property.Names : Property → Value → Prop
  | .data value _ _ _, v => v = value
  | .accessor get set _ _, v => get = some v ∨ set = some v

/-- The values that an object names. -/
def ObjectRecord.Names (o : ObjectRecord (Behaviour σ)) (v : Value) : Prop :=
  o.prototype = some v ∨ (∃ x ∈ o.properties, x.2.Names v) ∨ o.primitive = some v ∨
    ∃ b, o.call = some b ∧ b.held? = some v

/-- The object at one place names the object at the other. -/
def Heap.Refers (h : Heap (Behaviour σ)) (r s : Ref) : Prop :=
  ∃ o, h[r]? = some o ∧ o.Names (.object s)

/-- An object that is a value, or is found from it along references. -/
def Heap.Reaches (h : Heap (Behaviour σ)) (v : Value) (s : Ref) : Prop :=
  ∃ r, v = .object r ∧ Relation.ReflTransGen h.Refers r s

/-! ## What is paired -/

theorem exists_of_rel {α α' : Type} {R : α → α' → Prop} {a : Option α} {a' : Option α'} {x : α}
    (h : Option.Rel R a a') (ha : a = some x) : ∃ x', R x x' := by
  cases h with
  | some hr =>
    cases ha
    exact ⟨_, hr⟩
  | none => cases ha

theorem Property.Renamed.exists_of_names {p p' : Property} {v : Value} (h : Renamed β p p')
    (hv : p.Names v) : ∃ v', Value.Renamed β v v' := by
  cases h with
  | data hu =>
    cases hv
    exact ⟨_, hu⟩
  | accessor hg hs =>
    rcases hv with hv | hv
    · exact exists_of_rel hg hv
    · exact exists_of_rel hs hv

theorem Intrinsic.Renamed.exists_of_held {i i' : Intrinsic} {v : Value} (h : Renamed β i i')
    (hv : i.held? = some v) : ∃ v', Value.Renamed β v v' := by
  cases h with
  | same _ hi => cases hi.symm.trans hv
  | toObject hu | getOwnPropertyDescriptor hu =>
    cases hv
    exact ⟨_, hu⟩

theorem ObjectRecord.Renamed.exists_of_names {S : HostLikeness σ σ}
    {o o' : ObjectRecord (Behaviour σ)} {v : Value}
    (h : Renamed (Behaviour.Renamed S β) β o o') (hv : o.Names v) :
    ∃ v', Value.Renamed β v v' := by
  rcases hv with hv | ⟨x, hx, hv⟩ | hv | ⟨b, hb, hv⟩
  · exact exists_of_rel h.prototype hv
  · obtain ⟨i, hi, rfl⟩ := List.mem_iff_getElem.mp hx
    have hpair := List.Forall₂.get h.properties hi (h.properties.length_eq ▸ hi)
    exact hpair.2.exists_of_names hv
  · exact exists_of_rel h.primitive hv
  · obtain ⟨b', hbb⟩ := exists_of_rel h.call hb
    cases hbb with
    | provided hi => exact hi.exists_of_held hv
    | user => cases hv

theorem Value.Renamed.exists_pair {r : Ref} {v' : Value} (h : Renamed β (.object r) v') :
    ∃ s, β r s := by
  cases h with
  | plain _ hv => cases hv
  | object hr => exact ⟨_, hr⟩

/-- **From paired objects only paired ones are reached.** -/
theorem Heap.Renamed.exists_of_reaches {S : HostLikeness σ σ} {h h' : Heap (Behaviour σ)}
    (hh : h.Renamed (Behaviour.Renamed S) β h') {v v' : Value} (hv : Value.Renamed β v v')
    {s : Ref} (hs : h.Reaches v s) : ∃ t, β s t := by
  obtain ⟨r, rfl, hs⟩ := hs
  induction hs with
  | refl => exact hv.exists_pair
  | tail _ hrefers ih =>
    obtain ⟨t, ht⟩ := ih
    obtain ⟨o, ho, hnames⟩ := hrefers
    obtain ⟨o₁, o', ho₁, -, hoo⟩ := hh _ _ ht
    cases ho.symm.trans ho₁
    obtain ⟨v', hv'⟩ := hoo.exists_of_names hnames
    exact hv'.exists_pair

/-- The same is reached where the records of all that is reached stay. -/
theorem Heap.reaches_iff_of_kept {h h' : Heap (Behaviour σ)} {v : Value}
    (hkept : ∀ r, h.Reaches v r → h'[r]? = h[r]?) (s : Ref) : h'.Reaches v s ↔ h.Reaches v s := by
  constructor
  · rintro ⟨r, rfl, hs⟩
    induction hs with
    | refl => exact ⟨r, rfl, .refl⟩
    | tail _ hrefers ih =>
      obtain ⟨o, ho, hnames⟩ := hrefers
      obtain ⟨_, ⟨⟩, hpath⟩ := ih
      exact ⟨r, rfl, hpath.tail ⟨o, (hkept _ ⟨r, rfl, hpath⟩).symm.trans ho, hnames⟩⟩
  · rintro ⟨r, rfl, hs⟩
    refine ⟨r, rfl, ?_⟩
    induction hs with
    | refl => exact .refl
    | tail hr hrefers ih =>
      obtain ⟨o, ho, hnames⟩ := hrefers
      exact ih.tail ⟨o, (hkept _ ⟨r, rfl, hr⟩).trans ho, hnames⟩

/-! ## Realms -/

/-- The objects of a realm. -/
def Realm.values (realm : Realm) : List Value :=
  [realm.objectPrototype, realm.functionPrototype, realm.arrayPrototype, realm.objectConstructor]

theorem Realm.Renamed.values {realm realm' : Realm} (h : Renamed β realm realm') :
    List.Forall₂ (Value.Renamed β) realm.values realm'.values :=
  .cons h.objectPrototype (.cons h.functionPrototype (.cons h.arrayPrototype
    (.cons h.objectConstructor .nil)))

theorem exists_of_forall₂ {α α' : Type} {R : α → α' → Prop} {as : List α} {as' : List α'}
    (h : List.Forall₂ R as as') {a : α} (ha : a ∈ as) : ∃ a' ∈ as', R a a' := by
  induction h with
  | nil => cases ha
  | cons hr _ ih =>
    rcases List.mem_cons.mp ha with rfl | ha
    · exact ⟨_, List.mem_cons_self, hr⟩
    · obtain ⟨a', ha', haa⟩ := ih ha
      exact ⟨a', List.mem_cons_of_mem _ ha', haa⟩

namespace Eval

variable {κ : Type} (behaviour : Intrinsic → κ)

theorem exists_installMethods (r : Ref) (proto : Value) :
    ∀ (methods : List (String × Intrinsic)) (w : World κ σ),
      ∃ w', installMethods behaviour (.object r) proto methods w = .ok () w'
  | [], w => ⟨w, rfl⟩
  | (_, _) :: rest, _ => exists_installMethods r proto rest _

/-- The objects of a realm are the first ones that are added. -/
theorem exists_newRealm (w : World κ σ) : ∃ w', newRealm behaviour w =
    .ok ⟨.object w.heap.size, .object (w.heap.size + 1), .object (w.heap.size + 2),
      .object (w.heap.size + 3)⟩ w' := by
  unfold newRealm
  rw [newObject, bind_of_ok (alloc_eq _ _), newFunction, bind_of_ok (alloc_eq _ _), newArray,
    bind_of_ok (alloc_eq _ _), newFunction, bind_of_ok (alloc_eq _ _)]
  simp only [Array.size_push]
  obtain ⟨w₁, h₁⟩ := exists_installMethods behaviour w.heap.size (.object (w.heap.size + 1))
    Realm.objectMethods _
  rw [bind_of_ok h₁]
  obtain ⟨w₂, h₂⟩ := exists_installMethods behaviour (w.heap.size + 2)
    (.object (w.heap.size + 1)) Realm.arrayMethods w₁
  rw [bind_of_ok h₂]
  obtain ⟨w₃, h₃⟩ := exists_installMethods behaviour (w.heap.size + 3)
    (.object (w.heap.size + 1)) (Realm.constructorMethods (.object w.heap.size)) w₂
  rw [bind_of_ok h₃]
  exact ⟨_, rfl⟩

end Eval

/--
**A realm is always made.** No object changes, and from the four objects of the realm only new
objects are reached.
-/
theorem Eval.newRealm_apart (w : World (Behaviour σ) σ) :
    ∃ (realm : Realm) (w₁ : World (Behaviour σ) σ),
      Eval.newRealm .provided w = .ok realm w₁ ∧ w.heap.Extends w₁.heap ∧
        ∀ v ∈ realm.values, v.isObject = true ∧ ∀ r, w₁.heap.Reaches v r → w.heap.size ≤ r := by
  obtain ⟨w₁, hrun⟩ := exists_newRealm Behaviour.provided w
  refine ⟨_, w₁, hrun, (newRealm_extends w).ok hrun, fun v hv => ⟨?_, fun r hr => ?_⟩⟩
  · simp only [Realm.values, List.mem_cons, List.not_mem_nil, or_false] at hv
    rcases hv with rfl | rfl | rfl | rfl <;> rfl
  · -- Nothing is paired before, so what the realm is paired with by its own run is new.
    have halike := Alike.newRealm (β := .empty) (HostLikeness.same σ).code_provided
    have hends := halike .empty le_rfl w w ⟨fun _ _ hr => hr.elim, rfl⟩
    rw [hrun] at hends
    cases hends with
    | ok hleads hrealm =>
      obtain ⟨v', -, hvv⟩ := exists_of_forall₂ hrealm.values hv
      obtain ⟨s, hs⟩ := hleads.worlds.heap.exists_of_reaches hvv hr
      rcases hleads.fresh r s hs with hold | hnew
      · exact hold.elim
      · exact hnew.1

end Es5
