import Es5.Proofs.Chain
import Es5.Proofs.Spelled

/-!
# Descriptions under edited prototypes

The object that describes a property is made by assignments, and these go by what user code stored
on the prototype of such objects: a setter is called, and a read-only property keeps a field out.

* `Heap.Chain.push`: an object that is added leaves the chains of others as they are.
* **`Heap.Grounded.yields`**: what an object inherits as it is made.
* `Eval.writeDescriptor_setter`: a descriptor written up to the first setter in the way.
* `Eval.writeDescriptor_iff`: exactly when a descriptor is written in full.
* **`World.ReachesUnder.describes_iff`**: exactly when a property is described in full.
-/

namespace Es5

variable {κ σ : Type}

/-! ## What a new object inherits -/

namespace Heap

variable {h : Heap κ} {v proto : Value} {vs : List Value} {key : String} {o : ObjectRecord κ}

theorem record?_push_of_height (hv : v.height ≤ h.size) : record? (h.push o) v = h.record? v := by
  rw [record?_push, if_neg]
  rintro rfl
  exact absurd hv (Nat.not_succ_le_self h.size)

theorem height_le_of_contains (hv : h.contains (some v) = true) : v.height ≤ h.size := by
  cases v with
  | object r => exact lt_of_contains hv rfl
  | _ => exact Nat.zero_le _

theorem Chain.height_le (hg : h.Grounded) (hvs : h.Chain v vs) : ∀ u ∈ vs, u.height ≤ v.height := by
  induction hvs with
  | last => simp
  | up hv _ ih =>
    intro u hu
    rcases List.mem_cons.mp hu with rfl | hu
    · exact Nat.le_refl _
    · exact Nat.le_of_lt (Nat.lt_of_le_of_lt (ih u hu) (hg.height_lt hv))

/-- An object that is added leaves the chains of others as they are. -/
theorem Chain.push (hg : h.Grounded) (hvs : h.Chain v vs) (hv : v.height ≤ h.size) :
    Chain (h.push o) v vs := by
  induction hvs with
  | last hnone => exact .last (by rwa [prototype?, record?_push_of_height hv])
  | up hproto _ ih =>
    refine .up (by rwa [prototype?, record?_push_of_height hv]) (ih ?_)
    exact Nat.le_trans (Nat.le_of_lt (hg.height_lt hproto)) hv

theorem Grounded.push (hg : h.Grounded) (ho : h.contains o.prototype = true) :
    Grounded (h.push o) := fun r r' hr => by
  rw [prototype?, record?_push] at hr
  split at hr
  · rename_i he
    cases he
    exact lt_of_contains ho hr
  · exact hg r r' hr

/-- **A new object inherits what its prototype has or inherits.** -/
theorem Grounded.yields (hg : h.Grounded) (hproto : h.contains (some proto) = true) (key : String) :
    h.Yields proto key (h.find? proto key) := by
  intro o ho hown
  have hg' : Grounded (h.push o) := hg.push (ho ▸ hproto)
  have hheight := height_le_of_contains hproto
  obtain ⟨vs, hvs⟩ := hg.exists_chain proto
  have hchain : Chain (h.push o) proto vs := hvs.push hg hheight
  have hself : record? (h.push o) (.object h.size) = some o := by rw [record?_push, if_pos rfl]
  have hnew : Chain (h.push o) (.object h.size) (.object h.size :: vs) :=
    .up (by rw [prototype?, hself, Option.bind_some, ho]) hchain
  have hsame : vs.findSome? (own? (h.push o) · key) = vs.findSome? (h.own? · key) := by
    rw [← List.head?_filterMap, ← List.head?_filterMap]
    refine congrArg _ (List.filterMap_congr fun u hu => ?_)
    rw [own?, record?_push_of_height (Nat.le_trans (hvs.height_le hg u hu) hheight), own?]
  rw [hnew.find?_eq hg', hchain.find?_eq hg', hvs.find?_eq hg, List.findSome?_cons, own?, hself,
    Option.bind_some, hown, hsame]
  exact ⟨rfl, rfl⟩

end Heap

/-! ## Writing in spite of what is inherited -/

namespace Eval

variable {proto : Value} {w : World κ σ} {d : Descriptor} {nearest : String → Option Property}

/-- The first setter in the way is called with its field, on the object with the fields before. -/
theorem writeDescriptor_setter
    (hyields : ∀ field ∈ d.fields, w.heap.Yields proto field.1 (nearest field.1))
    {earlier later : List (String × Value)} {name : String} {value setter : Value}
    (hfields : d.fields = earlier ++ (name, value) :: later)
    (hearlier : ∀ field ∈ earlier, (nearest field.1).bind (·.setter?) = none)
    (hsetter : (nearest name).bind (·.setter?) = some setter) (caller : Caller κ σ) :
    writeDescriptor caller proto d w =
      (do
        let _ ← call caller setter (.object w.heap.size) [value]
        assign caller (.object w.heap.size) later
        pure (.object w.heap.size) : Eval κ σ Value)
      { w with heap := w.heap.push (.describing proto (earlier.filter (takesField nearest))) } := by
  have hnodup := d.nodup_fields
  rw [hfields] at hnodup hyields
  have hassign := assign_append caller w.host nearest ((name, value) :: later) earlier []
    (fun field hmem => hyields field (List.mem_append_left _ hmem)) hearlier
    (hnodup.sublist ((List.sublist_append_left earlier _).map Prod.fst))
  have hkept : ((earlier.filter (takesField nearest) ++ (name, value) :: later).map
      Prod.fst).Nodup :=
    hnodup.sublist ((List.filter_sublist.append_right _).map Prod.fst)
  have hput := put_inheriting (h := w.heap) (o := .describing proto _) caller nofun rfl rfl
    (Properties.get?_ofFields_append hkept)
    (hyields (name, value) (List.mem_append_right _ List.mem_cons_self)) value w.host
  rw [hsetter] at hput
  rw [writeDescriptor_assign, hfields]
  simp only [bind, EStateM.bind, hassign, assign, List.nil_append, hput]
  cases call caller setter (.object w.heap.size) [value]
    { w with heap := w.heap.push (.describing proto (earlier.filter (takesField nearest))) } <;> rfl

/-- Where calls fail, a setter does not return. -/
theorem call_failing (f this : Value) (args : List Value) (w : World κ σ) :
    ∃ e, call (fun _ _ _ => throw .exhausted) f this args w = .error e w := by
  cases hf : (w.heap.record? f).bind (·.call) with
  | none => exact ⟨_, by simp only [call, look, bind, EStateM.bind, hf]; rfl⟩
  | some b => exact ⟨_, call_of_callable hf this args⟩

/-- **A descriptor is written in full, whatever calls do, exactly if no field is kept out.** -/
theorem writeDescriptor_iff
    (hyields : ∀ field ∈ d.fields, w.heap.Yields proto field.1 (nearest field.1)) :
    (∀ caller : Caller κ σ, writeDescriptor caller proto d w = .ok (.object w.heap.size)
      { w with heap := w.heap.push (.describing proto d.fields) }) ↔
    ∀ field ∈ d.fields, takesField nearest field = true := by
  constructor
  · intro hfull
    -- Where no call returns, a result shows that no setter was called.
    have hstuck := hfull fun _ _ _ => throw .exhausted
    cases hfind : d.fields.find? fun field => ((nearest field.1).bind (·.setter?)).isSome with
    | some field =>
      obtain ⟨hsome, earlier, later, hfields, hearlier⟩ := List.find?_eq_some_iff_append.mp hfind
      obtain ⟨setter, hsetter⟩ := Option.isSome_iff_exists.mp hsome
      obtain ⟨e, he⟩ := call_failing setter (.object w.heap.size) [field.2]
        { w with heap := w.heap.push (.describing proto (earlier.filter (takesField nearest))) }
      rw [writeDescriptor_setter hyields hfields (by simpa using hearlier) hsetter,
        bind_of_error he] at hstuck
      cases hstuck
    | none =>
      rw [writeDescriptor_filter nearest hyields (by simpa using hfind)] at hstuck
      obtain ⟨-, hworld⟩ := EStateM.Result.ok.inj hstuck
      obtain ⟨hrecord, -⟩ := Array.push_eq_push.mp (World.mk.inj hworld).1
      have hlength := congrArg (·.properties.length) hrecord
      rw [ObjectRecord.describing, ObjectRecord.describing, Properties.ofFields,
        Properties.ofFields, List.length_map, List.length_map] at hlength
      exact List.length_filter_eq_length_iff.mp hlength
  · intro htakes caller
    have hsetter : ∀ field ∈ d.fields, (nearest field.1).bind (·.setter?) = none :=
      fun field hmem => setter?_of_takesField (htakes field hmem)
    rw [writeDescriptor_filter nearest hyields hsetter, List.filter_eq_self.mpr htakes]

end Eval

/-! ## Worlds reached from nothing -/

open Eval in
/--
**A property is described in full where all that its fields inherit is writable.** User code starts
from nothing, may call what it likes and edit own properties directly, and gives as a prototype any
value to a new object. A function that describes properties makes an object with the prototype that
it holds. That object gets each field of the complete descriptor of an own property, whatever calls
do, exactly if what it inherits under the name of a field is a writable property or none. Without
setters under these names it gets the fields but for those that are read-only. The first setter is
called on it with its field.
-/
theorem World.ReachesUnder.describes_iff {s : σ} {w : World (Behaviour σ) σ}
    (hw : ReachesUnder Rule.grounded ⟨#[], s⟩ w) {proto : Value}
    (hi : w.heap.Stores (.provided (.getOwnPropertyDescriptor proto))) {v : Value} {key : String}
    {p : Property} (hp : w.heap.own? v key = some p) :
    let fields := (Descriptor.ofProperty p).fields
    let nearest := w.heap.find? proto
    let D : Value := .object w.heap.size
    let made (fields : List (String × Value)) : World (Behaviour σ) σ :=
      { w with heap := w.heap.push (.describing proto fields) }
    let describe (caller : Caller (Behaviour σ) σ) (this : Value) :=
      (Intrinsic.getOwnPropertyDescriptor proto).run caller this [v, .string key] w
    ((∀ caller this, describe caller this = .ok D (made fields)) ↔
      ∀ field ∈ fields, ∀ q, nearest field.1 = some q → q.writable = true) ∧
    ((∀ field ∈ fields, (nearest field.1).bind (·.setter?) = none) → ∀ caller this,
      describe caller this = .ok D (made (fields.filter (takesField nearest)))) ∧
    ∀ earlier name value later setter, fields = earlier ++ (name, value) :: later →
      (∀ field ∈ earlier, (nearest field.1).bind (·.setter?) = none) →
      (nearest name).bind (·.setter?) = some setter → ∀ caller this, describe caller this =
        (do
          let _ ← call caller setter D [value]
          assign caller D later
          pure D : Eval (Behaviour σ) σ Value) (made (earlier.filter (takesField nearest))) := by
  intro fields nearest D made describe
  have hkeeps := hw.along ObjectRecord.groundedAt_invariant.passage Rule.grounded_keeps
  have hall := hkeeps.2 (Heap.all_empty _)
  have hproto : w.heap.contains (some proto) = true := by
    obtain ⟨r, o, ho, hcall⟩ := hi
    exact (hall r o ho).held _ hcall
  have hyields : ∀ field ∈ fields, w.heap.Yields proto field.1 (nearest field.1) :=
    fun field _ => (Heap.grounded_of_all hall).yields hproto field.1
  have hdescribe : ∀ caller this, describe caller this =
      writeDescriptor caller proto (.ofProperty p) w := fun caller _ =>
    bind_of_ok (getOwnPropertyDescriptor_own caller hp)
  refine ⟨?_, fun hnone caller this => ?_, ?_⟩
  · have hiff := writeDescriptor_iff (d := .ofProperty p) hyields
    simp only [takesField_iff] at hiff
    rw [← hiff]
    exact ⟨fun h caller => hdescribe caller .undefined ▸ h caller .undefined,
      fun h caller this => (hdescribe caller this).trans (h caller)⟩
  · rw [hdescribe]
    exact writeDescriptor_filter nearest hyields hnone
  · intro earlier name value later setter hfields hearlier hsetter caller this
    rw [hdescribe]
    exact writeDescriptor_setter hyields hfields hearlier hsetter caller

/-- Whether an object runs a provided function. -/
def Heap.provides (h : Heap (Behaviour σ)) (r : Ref) (i : Intrinsic) : Bool :=
  (h[r]?.bind (·.call)).any fun
    | .provided j => j == i
    | .user _ => false

theorem Heap.stores_of_provides {h : Heap (Behaviour σ)} {r : Ref} {i : Intrinsic}
    (hi : h.provides r i = true) : h.Stores (.provided i) := by
  obtain ⟨b, hb, htest⟩ := (Option.any_eq_true _ _).mp hi
  obtain ⟨o, ho, hcall⟩ := Option.bind_eq_some_iff.mp hb
  cases b with
  | provided j => exact ⟨r, o, ho, eq_of_beq htest ▸ hcall⟩
  | user body => cases htest

/-- User code that keeps the name of a field out of objects, and makes an object with a property. -/
def editPrototype : Program Unit :=
  .perform .newRealm fun _ =>
  .perform (.define (.object 0) "value" { value := some .null } true) fun _ =>
  .perform (.newObject (some (.object 0))) fun _ =>
  .perform (.put (.object 17) "x" .null true) fun _ => .done .undefined

/-- The world that `editPrototype` reaches from nothing. -/
def editedWorld : World (Behaviour Unit) Unit :=
  Eval.after (editPrototype.runUnder Rule.grounded (behaviourUnder Rule.grounded 0)) ⟨#[], ()⟩

/-- A read-only property of the object prototype keeps the value out of every description. -/
theorem World.ReachesUnder.describes_iff_edited :
    let describe (caller : Caller (Behaviour Unit) Unit) (this : Value) :=
      (Intrinsic.getOwnPropertyDescriptor (.object 0)).run caller this [.object 17, .string "x"]
        editedWorld
    let made (fields : List (String × Value)) : World (Behaviour Unit) Unit :=
      { editedWorld with heap := editedWorld.heap.push (.describing (.object 0) fields) }
    ReachesUnder Rule.grounded ⟨#[], ()⟩ editedWorld ∧
      editedWorld.heap.own? (.object 17) "x" = some (.plain .null) ∧
      (∀ caller this, describe caller this = .ok (.object 18)
        (made [("writable", .boolean true), ("enumerable", .boolean true),
          ("configurable", .boolean true)])) ∧
      ¬∀ caller this, describe caller this = .ok (.object 18)
        (made (Descriptor.ofProperty (.plain .null)).fields) := by
  intro describe made
  have hw : ReachesUnder Rule.grounded ⟨#[], ()⟩ editedWorld :=
    ⟨Rule.grounded, 0, editPrototype, fun _ _ _ => id, rfl⟩
  have hi : editedWorld.heap.Stores (.provided (.getOwnPropertyDescriptor (.object 0))) :=
    Heap.stores_of_provides (r := 10) (by decide +kernel)
  have hp : editedWorld.heap.own? (.object 17) "x" = some (.plain .null) := by decide +kernel
  have hsize : editedWorld.heap.size = 18 := by decide +kernel
  have hsetter : ∀ field ∈ (Descriptor.ofProperty (.plain .null)).fields,
      (editedWorld.heap.find? (.object 0) field.1).bind (·.setter?) = none := by decide +kernel
  have htaken : (Descriptor.ofProperty (.plain .null)).fields.filter
      (takesField (editedWorld.heap.find? (.object 0))) =
        [("writable", .boolean true), ("enumerable", .boolean true),
          ("configurable", .boolean true)] := by decide +kernel
  obtain ⟨hiff, hfilter, -⟩ := hw.describes_iff hi hp
  rw [hsize] at hiff hfilter
  refine ⟨hw, hp, fun caller this => htaken ▸ hfilter hsetter caller this, fun hfull => ?_⟩
  have hvalue := hiff.mp hfull ("value", .null) (by decide)
  exact absurd (hvalue (.fixed .null false) (by decide +kernel)) (by decide)

end Es5
