import Es5.Proofs.Alike
import Es5.Proofs.NewRealm
import Es5.Proofs.Spelled

/-!
# Operations that end alike

Operations on related arguments are alike if calls are, direct edits included. Each tells how its
answers are related.

* `Intrinsic.Renamed`, `Realm.Renamed`: provided functions that hold related objects, and realms.
* `Operation.Renamed β op op' A`: the same operation on related arguments, with answers related by
  `A`.
* **`Alike.provided`**: provided functions are alike.
* **`Alike.operation`**: operations are alike.
-/

namespace Es5

variable {κ κ' σ σ' : Type} {β γ : Renaming}

/-- The same provided function, with related objects held. -/
inductive Intrinsic.Renamed (β : Renaming) : Intrinsic → Intrinsic → Prop where
  | same (i : Intrinsic) (hi : i.held? = none) : Renamed β i i
  | toObject {v v' : Value} (hv : Value.Renamed β v v') : Renamed β (.toObject v) (.toObject v')
  | getOwnPropertyDescriptor {v v' : Value} (hv : Value.Renamed β v v') :
    Renamed β (.getOwnPropertyDescriptor v) (.getOwnPropertyDescriptor v')

theorem Intrinsic.Renamed.mono {i i' : Intrinsic} (hle : β ≤ γ) (h : Renamed β i i') :
    Renamed γ i i' := by
  cases h with
  | same _ hi => exact .same i hi
  | toObject hv => exact .toObject (hv.mono hle)
  | getOwnPropertyDescriptor hv => exact .getOwnPropertyDescriptor (hv.mono hle)

/-- Realms of related objects. -/
structure Realm.Renamed (β : Renaming) (realm realm' : Realm) : Prop where
  objectPrototype : Value.Renamed β realm.objectPrototype realm'.objectPrototype
  functionPrototype : Value.Renamed β realm.functionPrototype realm'.functionPrototype
  arrayPrototype : Value.Renamed β realm.arrayPrototype realm'.arrayPrototype
  objectConstructor : Value.Renamed β realm.objectConstructor realm'.objectConstructor

theorem Realm.Renamed.mono {realm realm' : Realm} (hle : β ≤ γ) (h : Renamed β realm realm') :
    Renamed γ realm realm' :=
  ⟨h.objectPrototype.mono hle, h.functionPrototype.mono hle, h.arrayPrototype.mono hle,
    h.objectConstructor.mono hle⟩

namespace Eval.Alike

variable {L : Likeness κ κ' σ σ'} {c : Caller κ σ} {c' : Caller κ' σ'} {v v' u u' : Value}

/-! ## Descriptors as objects -/

theorem assign (hc : CallsAlike L c c') {fields fields' : List (String × Value)}
    (hfields : List.Forall₂ (fun x x' => x.1 = x'.1 ∧ Value.Renamed β x.2 x'.2) fields fields') :
    ∀ {γ : Renaming} {v v' : Value}, β ≤ γ → Value.Renamed γ v v' →
      Alike L γ Renaming.Same (Eval.assign c v fields) (Eval.assign c' v' fields') := by
  induction hfields with
  | nil => exact fun _ _ => same ()
  | @cons x x' _ _ hx _ ih =>
    intro γ v v' hle hv
    obtain ⟨key, value⟩ := x
    obtain ⟨key', value'⟩ := x'
    obtain ⟨rfl, hvalue⟩ := hx
    exact bind_same (putWith hc hv key (hvalue.mono hle) false) fun γ' _ hle' =>
      ih (hle.trans hle') (hv.mono hle')

theorem fields {d d' : Descriptor} (hd : Descriptor.Renamed β d d') :
    List.Forall₂ (fun x x' => x.1 = x'.1 ∧ Value.Renamed β x.2 x'.2) d.fields d'.fields := by
  have hflag : ∀ {f f' : Option Bool}, f = f' →
      Option.Rel (Value.Renamed β) (f.map .boolean) (f'.map .boolean) := fun {f f'} hf => by
    cases hf
    cases f with
    | none => exact .none
    | some b => exact .some (.plain _ rfl)
  have hone : ∀ (name : String) {x x' : Option Value}, Option.Rel (Value.Renamed β) x x' →
      ∀ {named named' : List (String × Option Value)},
        List.Forall₂ (fun y y' => y.1 = y'.1 ∧ Value.Renamed β y.2 y'.2)
          (named.filterMap fun y => y.2.map (y.1, ·))
          (named'.filterMap fun y => y.2.map (y.1, ·)) →
        List.Forall₂ (fun y y' => y.1 = y'.1 ∧ Value.Renamed β y.2 y'.2)
          (((name, x) :: named).filterMap fun y => y.2.map (y.1, ·))
          (((name, x') :: named').filterMap fun y => y.2.map (y.1, ·)) := by
    intro name x x' hx named named' hrest
    cases hx with
    | none => exact hrest
    | some hv => exact .cons ⟨rfl, hv⟩ hrest
  exact hone _ hd.value (hone _ (hflag hd.writable) (hone _ hd.get (hone _ hd.set
    (hone _ (hflag hd.enumerable) (hone _ (hflag hd.configurable) .nil)))))

theorem writeDescriptor (hc : CallsAlike L c c') (hv : Value.Renamed β v v')
    {d d' : Descriptor} (hd : Descriptor.Renamed β d d') :
    Alike L β Value.Renamed (Eval.writeDescriptor c v d) (Eval.writeDescriptor c' v' d') := by
  have hnew : ObjectRecord.Renamed (L.call β) β
      { kind := .object, prototype := some v } { kind := .object, prototype := some v' } :=
    ⟨rfl, .nil, .some hv, rfl, .none, .none⟩
  unfold Eval.writeDescriptor
  refine bind (alloc hnew) fun γ o o' hle ho => ?_
  rw [forIn_put, forIn_put]
  exact bind_same (assign hc (fields hd) hle ho) fun _ _ hle' => pure fun _ hle'' =>
    (ho.mono hle').mono hle''

/-! ## Functions of the object constructor -/

theorem defineProperty (hc : CallsAlike L c c') {attributes attributes' : Value}
    (hv : Value.Renamed β v v') (hu : Value.Renamed β u u')
    (ha : Value.Renamed β attributes attributes') :
    Alike L β Value.Renamed (Eval.defineProperty c v u attributes)
      (Eval.defineProperty c' v' u' attributes') := by
  refine bind_same (argumentObject _ hv) fun γ₁ _ h₁ => ?_
  refine bind_same (toText hc (hu.mono h₁)) fun γ₂ name h₂ => ?_
  refine bind (readDescriptor hc ((ha.mono h₁).mono h₂)) fun γ₃ d d' h₃ hd => ?_
  have hv₃ := ((hv.mono h₁).mono h₂).mono h₃
  exact bind_same (defineOwn hc hv₃ name hd true) fun γ₄ _ h₄ => pure fun _ hle =>
    (hv₃.mono h₄).mono hle

theorem lookObject {α : Type} (function : String) (hv : Value.Renamed β v v') {f : Heap κ → α}
    {f' : Heap κ' → α}
    (hf : ∀ γ h h', β ≤ γ → h.Renamed L.call γ h' → f h = f' h') :
    Alike L β Renaming.Same (Eval.argumentObject function v >>= fun _ => Eval.look f)
      (Eval.argumentObject function v' >>= fun _ => Eval.look f') :=
  bind_same (argumentObject _ hv) fun _ _ hle => look fun γ h h' hle' hh =>
    hf γ h h' (hle.trans hle') hh

/-- What is computed from the property under a key may be the same. -/
theorem own_map {h : Heap κ} {h' : Heap κ'} (hh : h.Renamed L.call β h') (hv : Value.Renamed β v v')
    {f : Property → Bool} (hf : ∀ {p p' : Property}, Property.Renamed β p p' → f p = f p') :
    (fun key => ((h.own? v key).map f).getD false) =
      fun key => ((h'.own? v' key).map f).getD false :=
  funext fun key => rel_getD (R := (· = ·)) (rel_map (fun _ _ hp => hf hp) (hh.own? hv key)) rfl

theorem keys (hv : Value.Renamed β v v') :
    Alike L β Renaming.Same (Eval.keys v) (Eval.keys v') :=
  lookObject _ hv fun γ h h' hle hh => by
    rw [hh.ownKeys (hv.mono hle), own_map hh (hv.mono hle) fun hp => hp.enumerable]

theorem isExtensible (hv : Value.Renamed β v v') :
    Alike L β Renaming.Same (Eval.isExtensible v) (Eval.isExtensible v') :=
  lookObject _ hv fun _ _ _ hle hh => hh.isExtensible (hv.mono hle)

theorem isSealed (hv : Value.Renamed β v v') :
    Alike L β Renaming.Same (Eval.isSealed v) (Eval.isSealed v') :=
  lookObject _ hv fun γ h h' hle hh => by
    rw [hh.ownKeys (hv.mono hle), hh.isExtensible (hv.mono hle),
      own_map hh (hv.mono hle) fun hp => hp.configurable]

theorem isFrozen (hv : Value.Renamed β v v') :
    Alike L β Renaming.Same (Eval.isFrozen v) (Eval.isFrozen v') :=
  lookObject _ hv fun γ h h' hle hh => by
    rw [hh.ownKeys (hv.mono hle), hh.isExtensible (hv.mono hle),
      own_map hh (hv.mono hle) (f := fun p => p.writable || p.configurable) fun hp => by
        rw [hp.writable, hp.configurable]]

theorem preventExtensionsOf (hv : Value.Renamed β v v') :
    Alike L β Value.Renamed (Eval.preventExtensionsOf v) (Eval.preventExtensionsOf v') :=
  bind_same (argumentObject _ hv) fun _ _ h₁ =>
    bind_same (preventExtensions (hv.mono h₁)) fun _ _ h₂ =>
      pure fun _ hle => ((hv.mono h₁).mono h₂).mono hle

theorem defineAll (hc : CallsAlike L c c') {describe : Option Property → Descriptor}
    (hdescribe : ∀ {γ : Renaming} {p p' : Option Property}, Option.Rel (Property.Renamed γ) p p' →
      Descriptor.Renamed γ (describe p) (describe p')) :
    ∀ (names : List String) {β : Renaming} {v v' : Value}, Value.Renamed β v v' →
      Alike L β Renaming.Same (Eval.defineAll c v describe names)
        (Eval.defineAll c' v' describe names)
  | [], _, _, _, _ => same ()
  | key :: rest, _, _, _, hv => by
    refine bind (A := Renaming.Optional Property.Renamed)
      (look fun _ h h' hle hh => hh.own? (hv.mono hle) key) fun γ p p' h₁ hp => ?_
    exact bind_same (defineOwn hc (hv.mono h₁) key (hdescribe hp) true) fun _ _ h₂ =>
      defineAll hc hdescribe rest ((hv.mono h₁).mono h₂)

theorem sealing {p p' : Option Property} :
    Descriptor.Renamed β (Eval.sealing p) (Eval.sealing p') := .attributes none none (some false)

theorem freezing {p p' : Option Property} (hp : Option.Rel (Property.Renamed β) p p') :
    Descriptor.Renamed β (Eval.freezing p) (Eval.freezing p') := by
  have hdata : (p.map (·.isData)).getD false = (p'.map (·.isData)).getD false :=
    rel_getD (R := (· = ·)) (rel_map (fun _ _ hp => hp.isData) hp) rfl
  rw [Eval.freezing, Eval.freezing, hdata]
  exact .attributes _ none (some false)

theorem makeSealed (hc : CallsAlike L c c') (hv : Value.Renamed β v v') :
    Alike L β Value.Renamed (Eval.makeSealed c v) (Eval.makeSealed c' v') := by
  refine bind_same (argumentObject _ hv) fun γ₁ _ h₁ => ?_
  have hv₁ := hv.mono h₁
  refine bind_same (look fun _ h h' hle hh => hh.ownKeys (hv₁.mono hle)) fun γ₂ names h₂ => ?_
  have hv₂ := hv₁.mono h₂
  refine bind_same (defineAll hc (fun _ => sealing) names hv₂) fun γ₃ _ h₃ => ?_
  exact bind_same (preventExtensions (hv₂.mono h₃)) fun _ _ h₄ => pure fun _ hle =>
    ((hv₂.mono h₃).mono h₄).mono hle

theorem makeFrozen (hc : CallsAlike L c c') (hv : Value.Renamed β v v') :
    Alike L β Value.Renamed (Eval.makeFrozen c v) (Eval.makeFrozen c' v') := by
  refine bind_same (argumentObject _ hv) fun γ₁ _ h₁ => ?_
  have hv₁ := hv.mono h₁
  refine bind_same (look fun _ h h' hle hh => hh.ownKeys (hv₁.mono hle)) fun γ₂ names h₂ => ?_
  have hv₂ := hv₁.mono h₂
  refine bind_same (defineAll hc freezing names hv₂) fun γ₃ _ h₃ => ?_
  exact bind_same (preventExtensions (hv₂.mono h₃)) fun _ _ h₄ => pure fun _ hle =>
    ((hv₂.mono h₃).mono h₄).mono hle

/-! ## New objects and direct edits -/

theorem newObject {proto proto' : Option Value}
    (hproto : Option.Rel (Value.Renamed β) proto proto') :
    Alike L β Value.Renamed (Eval.newObject proto) (Eval.newObject proto') :=
  alloc ⟨rfl, .nil, hproto, rfl, .none, .none⟩

theorem newFunction {b : κ} {b' : κ'} (hb : L.call β b b') {proto proto' : Option Value}
    (hproto : Option.Rel (Value.Renamed β) proto proto') :
    Alike L β Value.Renamed (Eval.newFunction b proto) (Eval.newFunction b' proto') :=
  alloc ⟨rfl, .nil, hproto, rfl, .some hb, .none⟩

theorem arrayProperties {vs vs' : List Value} (hvs : List.Forall₂ (Value.Renamed β) vs vs') :
    Properties.Renamed β (Es5.arrayProperties vs) (Es5.arrayProperties vs') := by
  have helements : ∀ k : Nat, Properties.Renamed β
      (vs.mapIdx fun i v => (indexKey (i + k), .plain v))
      (vs'.mapIdx fun i v => (indexKey (i + k), .plain v)) := by
    induction hvs with
    | nil => exact fun _ => .nil
    | cons hv _ ih =>
      intro k
      rw [List.mapIdx_cons, List.mapIdx_cons]
      refine .cons ⟨rfl, .data hv _ _ _⟩ ?_
      have hshift : ∀ i, i + 1 + k = i + (k + 1) := fun i => by omega
      simp only [hshift]
      exact ih (k + 1)
  unfold Es5.arrayProperties
  rw [hvs.length_eq]
  exact (helements 0).append (.cons ⟨rfl, .data (.plain _ rfl) _ _ _⟩ .nil)

theorem newArray {vs vs' : List Value} (hvs : List.Forall₂ (Value.Renamed β) vs vs')
    {proto proto' : Option Value} (hproto : Option.Rel (Value.Renamed β) proto proto') :
    Alike L β Value.Renamed (Eval.newArray vs proto) (Eval.newArray vs' proto') :=
  alloc ⟨rfl, arrayProperties hvs, hproto, rfl, .none, .none⟩

theorem store (hv : Value.Renamed β v v') (key : String) {p p' : Property}
    (hp : Property.Renamed β p p') :
    Alike L β Renaming.Same (Eval.store v key p) (Eval.store v' key p') := by
  cases hv with
  | object hr => exact update hr fun _ hle _ _ hoo => hoo.insert key (hp.mono hle)
  | plain v hv =>
    cases v with
    | object => cases hv
    | _ => exact same ()

theorem unstore (hv : Value.Renamed β v v') (key : String) :
    Alike L β (Renaming.Optional Property.Renamed) (Eval.unstore v key)
      (Eval.unstore v' key) := by
  cases hv with
  | @object r s hr =>
    show Alike L β _ (Eval.change fun h => (h.own? (.object r) key, h.update r (·.erase key)))
      (Eval.change fun h => (h.own? (.object s) key, h.update s (·.erase key)))
    exact change hr (fun _ _ _ hle hh => hh.unstore (hle _ _ hr) key)
      (fun h => .update h r (·.erase key)) fun h => .update h s (·.erase key)
  | plain v hv =>
    cases v with
    | object => cases hv
    | _ => exact pure fun _ _ => .none

theorem setPrototype (hv : Value.Renamed β v v') {proto proto' : Option Value}
    (hproto : Option.Rel (Value.Renamed β) proto proto') :
    Alike L β Renaming.Same (Eval.setPrototype v proto) (Eval.setPrototype v' proto') := by
  cases hv with
  | object hr =>
    exact update hr fun _ hle _ _ hoo => hoo.setPrototype (rel_mono (fun _ _ => .mono hle) hproto)
  | plain v hv =>
    cases v with
    | object => cases hv
    | _ => exact same ()

/-! ## New realms -/

variable {behaviour : Intrinsic → κ} {behaviour' : Intrinsic → κ'}
  (hb : ∀ {γ : Renaming} {i i' : Intrinsic}, Intrinsic.Renamed γ i i' →
    L.call γ (behaviour i) (behaviour' i'))

include hb

theorem installMethods {methods methods' : List (String × Intrinsic)}
    (hmethods : List.Forall₂ (fun x x' => x.1 = x'.1 ∧ Intrinsic.Renamed β x.2 x'.2) methods
      methods') : ∀ {γ : Renaming} {v v' proto proto' : Value}, β ≤ γ → Value.Renamed γ v v' →
    Value.Renamed γ proto proto' → Alike L γ Renaming.Same
      (Eval.installMethods behaviour v proto methods)
      (Eval.installMethods behaviour' v' proto' methods') := by
  induction hmethods with
  | nil => exact fun _ _ _ => same ()
  | @cons x x' _ _ hx _ ih =>
    intro γ v v' proto proto' hle hv hproto
    obtain ⟨name, i⟩ := x
    obtain ⟨name', i'⟩ := x'
    obtain ⟨rfl, hi⟩ := hx
    refine bind (newFunction (hb (hi.mono hle)) (.some hproto)) fun γ₁ f f' h₁ hf => ?_
    refine bind_same (store (hv.mono h₁) name (.data hf _ _ _)) fun γ₂ _ h₂ => ?_
    exact ih ((hle.trans h₁).trans h₂) ((hv.mono h₁).mono h₂) ((hproto.mono h₁).mono h₂)

/-- New realms are alike. -/
theorem newRealm :
    Alike L β Realm.Renamed (Eval.newRealm behaviour) (Eval.newRealm behaviour') := by
  have hsame : ∀ (γ : Renaming) (methods : List (String × Intrinsic)),
      (∀ method ∈ methods, method.2.held? = none) →
      List.Forall₂ (fun x x' : String × Intrinsic => x.1 = x'.1 ∧ Intrinsic.Renamed γ x.2 x'.2)
        methods methods := fun γ methods hmethods =>
    List.forall₂_same.mpr fun method hm => ⟨rfl, .same _ (hmethods method hm)⟩
  refine bind (newObject .none) fun γ₁ o o' _ ho₁ => ?_
  refine bind (newFunction (hb (.same .nothing rfl)) (.some ho₁)) fun γ₂ f f' h₂ hf₂ => ?_
  have ho₂ := ho₁.mono h₂
  refine bind (newArray .nil (.some ho₂)) fun γ₃ a a' h₃ ha₃ => ?_
  have ho₃ := ho₂.mono h₃
  have hf₃ := hf₂.mono h₃
  refine bind (newFunction (hb (.toObject ho₃)) (.some hf₃)) fun γ₄ k k' h₄ hk₄ => ?_
  have ho₄ := ho₃.mono h₄
  have hf₄ := hf₃.mono h₄
  refine bind_same (installMethods hb (hsame γ₄ Realm.objectMethods (by decide)) le_rfl ho₄ hf₄)
    fun γ₅ _ h₅ => ?_
  refine bind_same (installMethods hb (hsame γ₅ Realm.arrayMethods (by decide)) le_rfl
    ((ha₃.mono h₄).mono h₅) (hf₄.mono h₅)) fun γ₆ _ h₆ => ?_
  have h₄₆ := h₅.trans h₆
  have hmethods : List.Forall₂ (fun x x' => x.1 = x'.1 ∧ Intrinsic.Renamed γ₆ x.2 x'.2)
      (Realm.constructorMethods o) (Realm.constructorMethods o') :=
    .cons ⟨rfl, .same _ rfl⟩ (.cons ⟨rfl, .getOwnPropertyDescriptor (ho₄.mono h₄₆)⟩
      (hsame γ₆ _ (by decide)))
  refine bind_same (installMethods hb hmethods le_rfl (hk₄.mono h₄₆) (hf₄.mono h₄₆))
    fun γ₇ _ h₇ => ?_
  have h₄₇ := h₄₆.trans h₇
  refine bind_same (store (hk₄.mono h₄₇) "prototype" (.data (ho₄.mono h₄₇) _ _ _))
    fun γ₈ _ h₈ => ?_
  have h₄₈ := h₄₇.trans h₈
  exact pure fun _ hle => Realm.Renamed.mono hle
    ⟨ho₄.mono h₄₈, hf₄.mono h₄₈, (ha₃.mono h₄).mono h₄₈, hk₄.mono h₄₈⟩

omit hb in
/-- **Provided functions are alike** that hold related objects. -/
theorem provided (hc : CallsAlike L c c') {i i' : Intrinsic} (hi : Intrinsic.Renamed β i i')
    (hv : Value.Renamed β v v') {args args' : List Value}
    (hargs : List.Forall₂ (Value.Renamed β) args args') :
    Alike L β Value.Renamed (i.run c v args) (i'.run c' v' args') := by
  have harg : ∀ i, Value.Renamed β (argument args i) (argument args' i) := fun i =>
    Value.Renamed.getD (Value.Renamed.getElem? hargs i)
  have hplain : ∀ {α : Type} {m : Eval κ σ α} {m' : Eval κ' σ' α} (f : α → Value),
      (∀ a, (f a).isObject = false) →
      Alike L β Renaming.Same m m' →
      Alike L β Value.Renamed (m >>= fun a => Pure.pure (f a)) (m' >>= fun a => Pure.pure (f a)) :=
    fun f hf hm => bind_same hm fun _ a _ => pure fun _ _ => .plain _ (hf a)
  cases hi with
  | toObject hproto =>
    have h0 := harg 0
    unfold Intrinsic.run
    generalize argument args 0 = x, argument args' 0 = x' at h0
    cases h0 with
    | object hr => exact toObject (.object hr)
    | plain x hx =>
      cases x with
      | undefined | null => exact newObject (.some hproto)
      | _ => exact toObject (.plain _ hx)
  | getOwnPropertyDescriptor hproto =>
    refine bind (getOwnPropertyDescriptor hc (harg 0) (harg 1)) fun γ d d' hle hd => ?_
    cases hd with
    | none => exact pure fun _ _ => .undefined
    | some hd => exact writeDescriptor hc (hproto.mono hle) hd
  | same i hheld =>
    cases i with
    | nothing => exact pure fun _ _ => .undefined
    | toObject | getOwnPropertyDescriptor => cases hheld
    | valueOf => exact toObject hv
    | tag => exact hplain _ (fun _ => rfl) (tag hv)
    | hasOwnProperty => exact hplain _ (fun _ => rfl) (hasOwnProperty hc hv (harg 0))
    | indexOf =>
      exact hplain _ (fun _ => rfl)
        (indexOf hc hv (harg 0) (Value.Renamed.getElem? hargs 1))
    | lastIndexOf =>
      exact hplain _ (fun _ => rfl)
        (lastIndexOf hc hv (harg 0) (Value.Renamed.getElem? hargs 1))
    | defineProperty => exact defineProperty hc (harg 0) (harg 1) (harg 2)
    | preventExtensions => exact preventExtensionsOf (harg 0)
    | isExtensible => exact hplain _ (fun _ => rfl) (isExtensible (harg 0))
    | makeFrozen => exact makeFrozen hc (harg 0)
    | isFrozen => exact hplain _ (fun _ => rfl) (isFrozen (harg 0))
    | makeSealed => exact makeSealed hc (harg 0)
    | isSealed => exact hplain _ (fun _ => rfl) (isSealed (harg 0))

end Eval.Alike

/-! ## Operations -/

/-- The same operation on related arguments, and how its answers are related. -/
inductive Operation.Renamed (β : Renaming) : (op op' : Operation) →
    (Renaming → op.Answer → op'.Answer → Prop) → Prop where
  | get {v v'} (hv : Value.Renamed β v v') (key) :
    Renamed β (.get v key) (.get v' key) Value.Renamed
  | put {v v'} (hv : Value.Renamed β v v') (key) {u u'} (hu : Value.Renamed β u u') (strict) :
    Renamed β (.put v key u strict) (.put v' key u' strict) Renaming.Same
  | delete {v v'} (hv : Value.Renamed β v v') (key strict) :
    Renamed β (.delete v key strict) (.delete v' key strict) Renaming.Same
  | define {v v'} (hv : Value.Renamed β v v') (key) {d d'} (hd : Descriptor.Renamed β d d')
    (strict) : Renamed β (.define v key d strict) (.define v' key d' strict) Renaming.Same
  | hasProperty {v v'} (hv : Value.Renamed β v v') (key) :
    Renamed β (.hasProperty v key) (.hasProperty v' key) Renaming.Same
  | canPut {v v'} (hv : Value.Renamed β v v') (key) :
    Renamed β (.canPut v key) (.canPut v' key) Renaming.Same
  | getOwnProperty {v v'} (hv : Value.Renamed β v v') (key) :
    Renamed β (.getOwnProperty v key) (.getOwnProperty v' key)
      (Renaming.Optional Property.Renamed)
  | getProperty {v v'} (hv : Value.Renamed β v v') (key) :
    Renamed β (.getProperty v key) (.getProperty v' key) (Renaming.Optional Property.Renamed)
  | preventExtensions {v v'} (hv : Value.Renamed β v v') :
    Renamed β (.preventExtensions v) (.preventExtensions v') Renaming.Same
  | call {f f'} (hf : Value.Renamed β f f') {v v'} (hv : Value.Renamed β v v') {args args'}
    (hargs : List.Forall₂ (Value.Renamed β) args args') :
    Renamed β (.call f v args) (.call f' v' args') Value.Renamed
  | invoke {v v'} (hv : Value.Renamed β v v') (name) {args args'}
    (hargs : List.Forall₂ (Value.Renamed β) args args') :
    Renamed β (.invoke v name args) (.invoke v' name args') Value.Renamed
  | toPrimitive {v v'} (hv : Value.Renamed β v v') (hint) :
    Renamed β (.toPrimitive v hint) (.toPrimitive v' hint) Value.Renamed
  | toNumber {v v'} (hv : Value.Renamed β v v') :
    Renamed β (.toNumber v) (.toNumber v') Renaming.Same
  | toInteger {v v'} (hv : Value.Renamed β v v') :
    Renamed β (.toInteger v) (.toInteger v') Renaming.Same
  | toUint32 {v v'} (hv : Value.Renamed β v v') :
    Renamed β (.toUint32 v) (.toUint32 v') Renaming.Same
  | toText {v v'} (hv : Value.Renamed β v v') :
    Renamed β (.toText v) (.toText v') Renaming.Same
  | toObject {v v'} (hv : Value.Renamed β v v') :
    Renamed β (.toObject v) (.toObject v') Value.Renamed
  | tag {v v'} (hv : Value.Renamed β v v') : Renamed β (.tag v) (.tag v') Renaming.Same
  | hasOwnProperty {v v'} (hv : Value.Renamed β v v') {u u'} (hu : Value.Renamed β u u') :
    Renamed β (.hasOwnProperty v u) (.hasOwnProperty v' u') Renaming.Same
  | indexOf {v v'} (hv : Value.Renamed β v v') {u u'} (hu : Value.Renamed β u u') {i i'}
    (hi : Option.Rel (Value.Renamed β) i i') :
    Renamed β (.indexOf v u i) (.indexOf v' u' i') Renaming.Same
  | lastIndexOf {v v'} (hv : Value.Renamed β v v') {u u'} (hu : Value.Renamed β u u') {i i'}
    (hi : Option.Rel (Value.Renamed β) i i') :
    Renamed β (.lastIndexOf v u i) (.lastIndexOf v' u' i') Renaming.Same
  | readDescriptor {v v'} (hv : Value.Renamed β v v') :
    Renamed β (.readDescriptor v) (.readDescriptor v') Descriptor.Renamed
  | defineProperty {v v'} (hv : Value.Renamed β v v') {u u'} (hu : Value.Renamed β u u') {x x'}
    (hx : Value.Renamed β x x') :
    Renamed β (.defineProperty v u x) (.defineProperty v' u' x') Value.Renamed
  | getOwnPropertyDescriptor {v v'} (hv : Value.Renamed β v v') {u u'}
    (hu : Value.Renamed β u u') :
    Renamed β (.getOwnPropertyDescriptor v u) (.getOwnPropertyDescriptor v' u')
      (Renaming.Optional Descriptor.Renamed)
  | keys {v v'} (hv : Value.Renamed β v v') : Renamed β (.keys v) (.keys v') Renaming.Same
  | preventExtensionsOf {v v'} (hv : Value.Renamed β v v') :
    Renamed β (.preventExtensionsOf v) (.preventExtensionsOf v') Value.Renamed
  | isExtensible {v v'} (hv : Value.Renamed β v v') :
    Renamed β (.isExtensible v) (.isExtensible v') Renaming.Same
  | makeSealed {v v'} (hv : Value.Renamed β v v') :
    Renamed β (.makeSealed v) (.makeSealed v') Value.Renamed
  | isSealed {v v'} (hv : Value.Renamed β v v') :
    Renamed β (.isSealed v) (.isSealed v') Renaming.Same
  | makeFrozen {v v'} (hv : Value.Renamed β v v') :
    Renamed β (.makeFrozen v) (.makeFrozen v') Value.Renamed
  | isFrozen {v v'} (hv : Value.Renamed β v v') :
    Renamed β (.isFrozen v) (.isFrozen v') Renaming.Same
  | newRealm : Renamed β .newRealm .newRealm Realm.Renamed
  | newObject {proto proto'} (hproto : Option.Rel (Value.Renamed β) proto proto') :
    Renamed β (.newObject proto) (.newObject proto') Value.Renamed
  | newArray {vs vs'} (hvs : List.Forall₂ (Value.Renamed β) vs vs') {proto proto'}
    (hproto : Option.Rel (Value.Renamed β) proto proto') :
    Renamed β (.newArray vs proto) (.newArray vs' proto') Value.Renamed
  | outline {v v'} (hv : Value.Renamed β v v') :
    Renamed β (.outline v) (.outline v')
      (Renaming.Optional (ObjectRecord.Renamed fun _ _ => True))
  | store {v v'} (hv : Value.Renamed β v v') (key) {p p'} (hp : Property.Renamed β p p') :
    Renamed β (.store v key p) (.store v' key p') Renaming.Same
  | unstore {v v'} (hv : Value.Renamed β v v') (key) :
    Renamed β (.unstore v key) (.unstore v' key) (Renaming.Optional Property.Renamed)
  | setPrototype {v v'} (hv : Value.Renamed β v v') {proto proto'}
    (hproto : Option.Rel (Value.Renamed β) proto proto') :
    Renamed β (.setPrototype v proto) (.setPrototype v' proto') Renaming.Same

/-- **Operations are alike** that are the same on related arguments. -/
theorem Eval.Alike.operation {L : Likeness κ κ' σ σ'} {c : Caller κ σ} {c' : Caller κ' σ'}
    (hc : CallsAlike L c c') {behaviour : Intrinsic → κ} {behaviour' : Intrinsic → κ'}
    (hb : ∀ {γ : Renaming} {i i' : Intrinsic}, Intrinsic.Renamed γ i i' →
      L.call γ (behaviour i) (behaviour' i')) {op op' : Operation}
    {A : Renaming → op.Answer → op'.Answer → Prop} (h : Operation.Renamed β op op' A) :
    Alike L β A (op.run behaviour c) (op'.run behaviour' c') := by
  cases h with
  | get hv key => exact get hc hv key
  | put hv key hu strict => exact putWith hc hv key hu strict
  | delete hv key strict => exact delete hv key strict
  | define hv key hd strict => exact defineOwn hc hv key hd strict
  | hasProperty hv key => exact look fun _ _ _ hle hh => hh.hasProperty (hv.mono hle) key
  | canPut hv key => exact look fun _ _ _ hle hh => hh.canPut (hv.mono hle) key
  | getOwnProperty hv key => exact look fun _ _ _ hle hh => hh.own? (hv.mono hle) key
  | getProperty hv key => exact look fun _ _ _ hle hh => hh.find? (hv.mono hle) key
  | preventExtensions hv => exact preventExtensions hv
  | call hf hv hargs => exact call hc hf hv hargs
  | invoke hv name hargs => exact invoke hc hv name hargs
  | toPrimitive hv hint => exact toPrimitive hc hv hint
  | toNumber hv => exact toNumber hc hv
  | toInteger hv => exact toInteger hc hv
  | toUint32 hv => exact toUint32 hc hv
  | toText hv => exact toText hc hv
  | toObject hv => exact toObject hv
  | tag hv => exact tag hv
  | hasOwnProperty hv hu => exact hasOwnProperty hc hv hu
  | indexOf hv hu hi => exact indexOf hc hv hu hi
  | lastIndexOf hv hu hi => exact lastIndexOf hc hv hu hi
  | readDescriptor hv => exact readDescriptor hc hv
  | defineProperty hv hu hx => exact defineProperty hc hv hu hx
  | getOwnPropertyDescriptor hv hu => exact getOwnPropertyDescriptor hc hv hu
  | keys hv => exact keys hv
  | preventExtensionsOf hv => exact preventExtensionsOf hv
  | isExtensible hv => exact isExtensible hv
  | makeSealed hv => exact makeSealed hc hv
  | isSealed hv => exact isSealed hv
  | makeFrozen hv => exact makeFrozen hc hv
  | isFrozen hv => exact isFrozen hv
  | newRealm => exact newRealm hb
  | newObject hproto => exact newObject hproto
  | newArray hvs hproto => exact newArray hvs hproto
  | outline hv => exact look fun _ _ _ hle hh => hh.outline (hv.mono hle)
  | store hv key hp => exact store hv key hp
  | unstore hv key => exact unstore hv key
  | setPrototype hv hproto => exact setPrototype hv hproto

end Es5
