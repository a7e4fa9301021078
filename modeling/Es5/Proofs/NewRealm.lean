import Es5.Proofs.Along

/-!
# New realms

A new realm adds objects after those that there are, which stay as they are. Each object that it
adds refers to earlier ones only, and is given data properties.

* `Heap.contains`: an optional value is anything but an object that the heap does not have.
* `ObjectRecord.PlainIn`: the objects that the language makes by itself.
* `Heap.Furnishing`: relations that hold as such objects are added and given properties.
* **`Furnishing.newRealm`**: they hold along a new realm.
* **`Eval.newRealm_extends`**: a new realm leaves every object as it is.
-/

namespace Es5

variable {κ σ : Type}

/-! ## Objects that the language makes by itself -/

/-- Whether an optional value is anything but an object that the heap does not have. -/
def Heap.contains (h : Heap κ) : Option Value → Bool
  | some (.object r) => r < h.size
  | _ => true

/-- The object that a provided function holds. -/
def Intrinsic.held? : Intrinsic → Option Value
  | toObject proto | getOwnPropertyDescriptor proto => some proto
  | _ => none

namespace Heap

variable {h h' : Heap κ} {v : Option Value} {r : Ref}

theorem contains_object {r : Nat} (hr : r < h.size) : h.contains (some (.object r)) = true := by
  simpa [contains] using hr

theorem lt_of_contains (hv : h.contains v = true) (hr : v = some (.object r)) : r < h.size := by
  subst hr
  simpa [contains] using hv

theorem contains_of_size_le (hsize : h.size ≤ h'.size) (hv : h.contains v = true) :
    h'.contains v = true := by
  rcases v with _ | (_ | _ | _ | _ | _ | r)
  case some.object => exact contains_object (Nat.lt_of_lt_of_le (lt_of_contains hv rfl) hsize)
  all_goals rfl

end Heap

/--
An object as the language makes it by itself: it has data properties under distinct keys, and its
prototype exists, as does the object that is held by the function that it runs.
-/
structure ObjectRecord.PlainIn (held : κ → Option Value) (h : Heap κ) (o : ObjectRecord κ) :
    Prop where
  data : ∀ x ∈ o.properties, x.2.isData = true
  nodup : o.properties.keys.Nodup
  prototype : h.contains o.prototype = true
  held : ∀ b, o.call = some b → h.contains (held b) = true

/-- A record without properties. -/
theorem ObjectRecord.plainIn_of_empty {held : κ → Option Value} {h : Heap κ} {o : ObjectRecord κ}
    (hps : o.properties = []) (hproto : h.contains o.prototype = true)
    (hheld : ∀ b, o.call = some b → h.contains (held b) = true) : o.PlainIn held h where
  data x hx := by
    rw [hps] at hx
    cases hx
  nodup := by
    rw [hps]
    exact List.nodup_nil
  prototype := hproto
  held := hheld

/-- The functions of a realm hold nothing but its object prototype. -/
theorem Realm.contains_held {h : Heap κ} {objects : Value} (ho : h.contains (some objects) = true)
    {method : String × Intrinsic}
    (hm : method ∈ objectMethods ++ arrayMethods ++ constructorMethods objects) :
    h.contains method.2.held? = true := by
  simp only [objectMethods, arrayMethods, constructorMethods, List.cons_append, List.nil_append,
    List.mem_cons, List.not_mem_nil, or_false] at hm
  rcases hm with rfl | rfl | rfl | rfl | rfl | rfl | rfl | rfl | rfl | rfl | rfl | rfl | rfl
  all_goals first
    | exact ho
    | rfl

/-! ## Along a new realm -/

namespace Eval

theorem eq_of_alloc {o : ObjectRecord κ} {w w' : World κ σ} {v : Value}
    (h : alloc o w = .ok v w') : v = .object w.heap.size ∧ w'.heap.size = w.heap.size + 1 := by
  rw [alloc_eq] at h
  cases h
  exact ⟨rfl, Array.size_push _⟩

end Eval

/--
A relation under which heaps only grow, and which holds as the language adds objects by itself after
the first `n`, and gives them data properties.
-/
structure Heap.Furnishing (held : κ → Option Value) (n : Nat) (R : Heap κ → Heap κ → Prop) :
    Prop where
  refl (h : Heap κ) : R h h
  trans {h₁ h₂ h₃ : Heap κ} : R h₁ h₂ → R h₂ h₃ → R h₁ h₃
  size_le {h h' : Heap κ} : R h h' → h.size ≤ h'.size
  add {h : Heap κ} {o : ObjectRecord κ} : n ≤ h.size → o.PlainIn held h → R h (h.push o)
  store (h : Heap κ) {r : Ref} (key : String) {p : Property} :
    n ≤ r → p.isData = true → R h (h.update r (·.insert key p))

namespace Heap.Furnishing

open Eval

variable {held : κ → Option Value} {n : Nat} {R : Heap κ → Heap κ → Prop}
  (hR : Furnishing held n R) {behaviour : Intrinsic → κ}
  (hheld : ∀ (h : Heap κ) (i : Intrinsic), h.contains i.held? = true →
    h.contains (held (behaviour i)) = true)

include hR

theorem bind {α β : Type} {m : Eval κ σ α} {f : α → Eval κ σ β} {w : World κ σ} (hm : Along R m w)
    (hf : ∀ a w', m w = .ok a w' → Along R (f a) w') : Along R (m >>= f) w :=
  Along.bind (R := R) (fun _ _ _ => hR.trans) hm hf

include hheld

theorem newFunction {i : Intrinsic} {proto : Value} {w : World κ σ} (hn : n ≤ w.heap.size)
    (hproto : w.heap.contains (some proto) = true) (hi : w.heap.contains i.held? = true) :
    Along R (Eval.newFunction (behaviour i) (some proto)) w := by
  refine hR.add hn (ObjectRecord.plainIn_of_empty rfl hproto ?_)
  rintro _ ⟨⟩
  exact hheld w.heap i hi

theorem installMethods {r : Ref} (hr : n ≤ r) {proto : Value} :
    ∀ (methods : List (String × Intrinsic)) (w : World κ σ), n ≤ w.heap.size →
      w.heap.contains (some proto) = true →
      (∀ method ∈ methods, w.heap.contains method.2.held? = true) →
      Along R (Eval.installMethods behaviour (.object r) proto methods) w
  | [], w, _, _, _ => hR.refl w.heap
  | (name, i) :: rest, w, hn, hproto, hmethods => by
    have hnew := hR.newFunction hheld hn hproto (hmethods (name, i) List.mem_cons_self)
    refine hR.bind hnew fun f w₁ h₁ => ?_
    have hstore : Along R (Eval.store (.object r) name (.method f)) w₁ :=
      hR.store w₁.heap name hr rfl
    refine hR.bind hstore fun _ w₂ h₂ => ?_
    have hsize : w.heap.size ≤ w₂.heap.size :=
      hR.size_le (hR.trans (hnew.ok h₁) (hstore.ok h₂))
    exact installMethods hr rest w₂ (Nat.le_trans hn hsize) (contains_of_size_le hsize hproto)
      fun method hm => contains_of_size_le hsize (hmethods method (List.mem_cons_of_mem _ hm))

/-- **What furnishing keeps holds along a new realm**: its objects refer to those before them. -/
theorem newRealm {w : World κ σ} (hn : n ≤ w.heap.size) : Along R (Eval.newRealm behaviour) w := by
  have hobject : Along R (newObject none) w :=
    hR.add hn (ObjectRecord.plainIn_of_empty rfl rfl fun _ hb => nomatch hb)
  refine hR.bind hobject fun objects w₁ h₁ => ?_
  obtain ⟨rfl, hs₁⟩ := eq_of_alloc h₁
  have hfunction := hR.newFunction hheld (i := .nothing) (w := w₁) (by omega)
    (contains_object (r := w.heap.size) (by omega)) rfl
  refine hR.bind hfunction fun functions w₂ h₂ => ?_
  obtain ⟨rfl, hs₂⟩ := eq_of_alloc h₂
  have harray : Along R (newArray [] (some (.object w.heap.size))) w₂ := by
    have hnodup : (arrayProperties []).keys.Nodup := by decide
    refine hR.add (by omega) ⟨?_, hnodup, contains_object (by omega), fun _ hb => nomatch hb⟩
    intro x hx
    rw [List.mem_singleton.mp hx]
    rfl
  refine hR.bind harray fun arrays w₃ h₃ => ?_
  obtain ⟨rfl, hs₃⟩ := eq_of_alloc h₃
  have hconstructor := hR.newFunction hheld (i := .toObject (.object w.heap.size)) (w := w₃)
    (by omega) (contains_object (r := w₁.heap.size) (by omega)) (contains_object (by omega))
  refine hR.bind hconstructor fun constructor w₄ h₄ => ?_
  obtain ⟨rfl, hs₄⟩ := eq_of_alloc h₄
  -- The three lists of methods go to objects that stand already.
  have hmethods : ∀ (r : Ref) (methods : List (String × Intrinsic)) (w' : World κ σ),
      n ≤ r → w₄.heap.size ≤ w'.heap.size →
      (∀ method ∈ methods, method ∈ Realm.objectMethods ++ Realm.arrayMethods ++
        Realm.constructorMethods (.object w.heap.size)) →
      Along R (Eval.installMethods behaviour (.object r) (.object w₁.heap.size) methods) w' :=
    fun r methods w' hr hsize hall => hR.installMethods hheld hr methods w' (by omega)
      (contains_object (by omega)) fun method hm =>
        Realm.contains_held (contains_object (by omega)) (hall method hm)
  have hobjects := hmethods w.heap.size Realm.objectMethods w₄ (by omega) (Nat.le_refl _)
    fun _ hm => by simp [hm]
  refine hR.bind hobjects fun _ w₅ h₅ => ?_
  have hs₅ := hR.size_le (hobjects.ok h₅)
  have harrays := hmethods w₂.heap.size Realm.arrayMethods w₅ (by omega) hs₅
    fun _ hm => by simp [hm]
  refine hR.bind harrays fun _ w₆ h₆ => ?_
  have hs₆ := hR.size_le (harrays.ok h₆)
  refine hR.bind (hmethods w₃.heap.size _ w₆ (by omega) (by omega) fun _ hm => by simp [hm])
    fun _ w₇ _ => ?_
  exact hR.bind (hR.store w₇.heap "prototype" (by omega) rfl) fun _ w₈ _ => hR.refl w₈.heap

end Heap.Furnishing

/-- The same first `n` objects, and possibly new ones. -/
def Heap.SameBelow (n : Nat) (h h' : Heap κ) : Prop :=
  h.size ≤ h'.size ∧ ∀ r < n, h'[r]? = h[r]?

theorem Heap.furnishing_sameBelow (n : Nat) :
    Furnishing (fun _ => none) n (SameBelow (κ := κ) n) where
  refl h := ⟨Nat.le_refl _, fun _ _ => rfl⟩
  trans h₁₂ h₂₃ := ⟨Nat.le_trans h₁₂.1 h₂₃.1, fun r hr => (h₂₃.2 r hr).trans (h₁₂.2 r hr)⟩
  size_le hsame := hsame.1
  add {h o} hn _ := by
    refine ⟨by rw [Array.size_push]; omega, fun r hr => ?_⟩
    rw [Array.getElem?_push_lt (by omega), Array.getElem?_eq_getElem (by omega)]
  store h r _ _ hr _ := by
    refine ⟨Nat.le_of_eq Array.size_modify.symm, fun i hi => ?_⟩
    rw [update, Array.getElem?_modify, if_neg (by omega)]

/-- **A new realm leaves every object as it is.** -/
theorem Eval.newRealm_extends {behaviour : Intrinsic → κ} (w : World κ σ) :
    Along Heap.Extends (newRealm behaviour) w := by
  intro r o ho
  have hsame : Along (Heap.SameBelow w.heap.size) (newRealm behaviour) w :=
    (Heap.furnishing_sameBelow w.heap.size).newRealm (fun _ _ _ => rfl) (Nat.le_refl _)
  rw [hsame.2 r (Array.getElem?_eq_some_iff.mp ho).1, ho]

end Es5
