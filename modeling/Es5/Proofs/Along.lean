import Es5.Program

/-!
# Actions along a relation between heaps

A relation between a heap and every later one is shown for the few steps that change a heap. It
then holds along every operation, whatever functions are called meanwhile and however it ends.

* `Eval.after`, `Eval.result?`: the world in which an action ends, and its result, if it has one.
* `Eval.Along R m w`: the heap of `w` is related by `R` to the heap in which `m` ends.
* `Heap.Extends`: the same objects and possibly new ones.
* `PlainLength S`: no object of `S` is given an object as its length.
* `Heap.Passage R`: what a relation has to respect to hold along functions that only read.
* `Heap.Course made given R`: what it has to respect to hold where objects are made and properties
  are defined as `made` and `given` allow.
* `Heap.Growth R`, `Heap.Evolution S R`: the same where any object may be made, and where lengths of
  `S` are plain.
* `Passage.get`, `Course.putWith`, …: the single functions that make up operations.
-/

namespace Es5

variable {κ σ α β : Type}

namespace Eval

/-- The world in which an action ends. -/
def after (m : Eval κ σ α) (w : World κ σ) : World κ σ :=
  match m w with
  | .ok _ w => w
  | .error _ w => w

/-- The result of an action, if there is one. -/
def result? (m : Eval κ σ α) (w : World κ σ) : Option α :=
  match m w with
  | .ok a _ => some a
  | .error .. => none

/-- The action takes the heap of `w` along `R`. -/
def Along (R : Heap κ → Heap κ → Prop) (m : Eval κ σ α) (w : World κ σ) : Prop :=
  R w.heap (after m w).heap

theorem after_of_ok {m : Eval κ σ α} {w w' : World κ σ} {a : α} (h : m w = .ok a w') :
    after m w = w' := by rw [after, h]

theorem after_of_error {m : Eval κ σ α} {w w' : World κ σ} {e : Abrupt} (h : m w = .error e w') :
    after m w = w' := by rw [after, h]

theorem result?_of_ok {m : Eval κ σ α} {w w' : World κ σ} {a : α} (h : m w = .ok a w') :
    result? m w = some a := by rw [result?, h]

theorem ok_of_result? {m : Eval κ σ α} {w : World κ σ} {a : α} (h : result? m w = some a) :
    ∃ w', m w = .ok a w' := by
  rw [result?] at h
  split at h
  · rename_i w' hm
    cases h
    exact ⟨w', hm⟩
  · cases h

theorem after_bind_of_ok {m : Eval κ σ α} {f : α → Eval κ σ β} {w w' : World κ σ} {a : α}
    (h : m w = .ok a w') : after (m >>= f) w = after (f a) w' := by
  simp only [after, bind, EStateM.bind, h]

theorem after_bind_of_error {m : Eval κ σ α} {f : α → Eval κ σ β} {w w' : World κ σ} {e : Abrupt}
    (h : m w = .error e w') : after (m >>= f) w = w' := by
  simp only [after, bind, EStateM.bind, h]

theorem bind_of_ok {m : Eval κ σ α} {f : α → Eval κ σ β} {w w' : World κ σ} {a : α}
    (h : m w = .ok a w') : (m >>= f) w = f a w' := by
  simp only [bind, EStateM.bind, h]

theorem bind_of_error {m : Eval κ σ α} {f : α → Eval κ σ β} {w w' : World κ σ} {e : Abrupt}
    (h : m w = .error e w') : (m >>= f) w = .error e w' := by
  simp only [bind, EStateM.bind, h]

theorem ok_of_bind {m : Eval κ σ α} {f : α → Eval κ σ β} {w w' : World κ σ} {b : β}
    (h : (m >>= f) w = .ok b w') : ∃ a w₁, m w = .ok a w₁ ∧ f a w₁ = .ok b w' := by
  simp only [bind, EStateM.bind] at h
  cases hm : m w with
  | ok a w₁ =>
    rw [hm] at h
    exact ⟨a, w₁, rfl, h⟩
  | error e w₁ =>
    rw [hm] at h
    cases h

namespace Along

variable {R : Heap κ → Heap κ → Prop} {m m' : Eval κ σ α} {w w' : World κ σ}

theorem ok {a : α} (hm : Along R m w) (h : m w = .ok a w') : R w.heap w'.heap := by
  unfold Along at hm
  rwa [after_of_ok h] at hm

theorem error {e : Abrupt} (hm : Along R m w) (h : m w = .error e w') : R w.heap w'.heap := by
  unfold Along at hm
  rwa [after_of_error h] at hm

theorem congr (hm : Along R m w) (h : m' w = m w) : Along R m' w := by
  unfold Along after at hm ⊢
  rw [h]
  exact hm

/-- Two actions in a row; the second may rely on how the first ended. -/
theorem bind (htrans : ∀ h₁ h₂ h₃, R h₁ h₂ → R h₂ h₃ → R h₁ h₃) {f : α → Eval κ σ β}
    (hm : Along R m w) (hf : ∀ a w', m w = .ok a w' → Along R (f a) w') :
    Along R (m >>= f) w := by
  unfold Along
  cases h : m w with
  | ok a w' =>
    rw [after_bind_of_ok h]
    exact htrans _ _ _ (hm.ok h) (hf a w' h)
  | error e w' =>
    rw [after_bind_of_error h]
    exact hm.error h

end Along

/-- Every call of a function goes along `R`. -/
def CallsAlong (R : Heap κ → Heap κ → Prop) (caller : Caller κ σ) : Prop :=
  ∀ (f this : Value) (args : List Value) (w : World κ σ), Along R (call caller f this args) w

theorem alloc_eq (o : ObjectRecord κ) (w : World κ σ) :
    alloc o w = .ok (.object w.heap.size) { w with heap := w.heap.push o } := rfl

end Eval

/-! ## Relations between a heap and later ones -/

/-- The same objects and possibly new ones. -/
def Heap.Extends (h h' : Heap κ) : Prop :=
  ∀ (r : Ref) (o : ObjectRecord κ), h[r]? = some o → h'[r]? = some o

/-- No object of `S` is given an object as its length. -/
def PlainLength (S : Value → Prop) (v : Value) (key : String) (x : Option Value) : Prop :=
  S v → key = "length" → ∀ y, x = some y → y.isObject = false

theorem Heap.extends_push (h : Heap κ) (o : ObjectRecord κ) : h.Extends (h.push o) := by
  intro r p hr
  have hlt : r < h.size := (Array.getElem?_eq_some_iff.mp hr).1
  rw [Array.getElem?_push_lt hlt, ← hr, Array.getElem?_eq_getElem hlt]

/-- Some object runs the behaviour when it is called. -/
def Heap.Stores (h : Heap κ) (b : κ) : Prop :=
  ∃ (r : Ref) (o : ObjectRecord κ), h[r]? = some o ∧ o.call = some b

/-- Relations between a heap and every later one, where only wrappers are added. -/
structure Heap.Passage (R : Heap κ → Heap κ → Prop) : Prop where
  refl (h : Heap κ) : R h h
  trans {h₁ h₂ h₃ : Heap κ} : R h₁ h₂ → R h₂ h₃ → R h₁ h₃
  wrap {h : Heap κ} {v : Value} {o : ObjectRecord κ} : wrapper? v = some o → R h (h.push o)

/--
Relations between a heap and every later one, where objects are made as `made` allows and
properties are defined as `given` allows. Definitions without accessors are always allowed, but for
one that gives a length: they are what the language defines by itself.
-/
structure Heap.Course (made : Heap κ → ObjectRecord κ → Prop)
    (given : Heap κ → Value → String → Descriptor → Prop) (R : Heap κ → Heap κ → Prop) : Prop
    extends Heap.Passage R where
  add {h : Heap κ} {o : ObjectRecord κ} : made h o → R h (h.push o)
  close (h : Heap κ) (r : Ref) : R h (h.update r fun o => { o with extensible := false })
  delete (h : Heap κ) (r : Ref) (key : String) : R h (h.delete r key).2
  define {σ : Type} {caller : Caller κ σ} (hc : Eval.CallsAlong R caller) {v : Value}
    {key : String} {d : Descriptor} {w : World κ σ} (hd : given w.heap v key d) (strict : Bool) :
    Eval.Along R (Eval.defineOwn caller v key d strict) w
  plain {h : Heap κ} {v : Value} {key : String} {d : Descriptor} (hget : d.get = none)
    (hset : d.set = none) (hlength : key = "length" → d.value = none) : given h v key d

/-- Relations between a heap and every later one: adding objects is no step of its own. -/
structure Heap.Growth (R : Heap κ → Heap κ → Prop) : Prop extends Heap.Passage R where
  extend {h h' : Heap κ} : h.Extends h' → R h h'
  refl _ := extend fun _ _ ho => ho
  wrap _ := extend (Heap.extends_push _ _)

/--
Relations between a heap and every later one, where the lengths of the objects of `S` are only
given as plain values. The last condition is about whole definitions, since those of a length may
call functions.
-/
structure Heap.Evolution (S : Value → Prop) (R : Heap κ → Heap κ → Prop) : Prop
    extends Heap.Growth R where
  close (h : Heap κ) (r : Ref) : R h (h.update r fun o => { o with extensible := false })
  delete (h : Heap κ) (r : Ref) (key : String) : R h (h.delete r key).2
  define {σ : Type} {caller : Caller κ σ} (hc : Eval.CallsAlong R caller) {v : Value}
    {key : String} {d : Descriptor} (hd : PlainLength S v key d.value) (strict : Bool)
    (w : World κ σ) : Eval.Along R (Eval.defineOwn caller v key d strict) w

/-- The definition that `attributes` describes is allowed by `given`. -/
def Eval.Describes (given : Heap κ → Value → String → Descriptor → Prop) (caller : Caller κ σ)
    (v key attributes : Value) (w : World κ σ) : Prop :=
  ∀ name w₁ d w₂, toText caller key w = .ok name w₁ →
    readDescriptor caller attributes w₁ = .ok d w₂ → given w₂.heap v name d

/-- Defining a property as `attributes` describes it gives no object as a length of `S`. -/
def DescribesPlain (S : Value → Prop) (caller : Caller κ σ) (v key attributes : Value)
    (w : World κ σ) : Prop :=
  ∀ name w₁ d w₂, Eval.toText caller key w = .ok name w₁ →
    Eval.readDescriptor caller attributes w₁ = .ok d w₂ → PlainLength S v name d.value

/-- The fields of a descriptor, present or not, under their names. -/
def Descriptor.named (d : Descriptor) : List (String × Option Value) :=
  [("value", d.value), ("writable", d.writable.map .boolean), ("get", d.get), ("set", d.set),
    ("enumerable", d.enumerable.map .boolean), ("configurable", d.configurable.map .boolean)]

/-- The names of the fields of a descriptor. -/
def Descriptor.fieldNames : List String :=
  ["value", "writable", "get", "set", "enumerable", "configurable"]

theorem Descriptor.mem_fieldNames {d : Descriptor} {field : String × Value}
    (h : field ∈ d.fields) : field.1 ∈ fieldNames := by
  obtain ⟨⟨name, x⟩, hmem, hx⟩ := List.mem_filterMap.mp h
  obtain ⟨y, -, rfl⟩ := Option.map_eq_some_iff.mp hx
  exact List.mem_map_of_mem (f := Prod.fst) hmem

theorem Descriptor.ne_length_of_mem_fields {d : Descriptor} {field : String × Value}
    (h : field ∈ d.fields) : field.1 ≠ "length" := by
  have hname := mem_fieldNames h
  intro he
  rw [he] at hname
  exact absurd hname (by decide)

/-! ## Reading and converting -/

namespace Heap.Passage

open Eval

variable {R : Heap κ → Heap κ → Prop} (hR : Heap.Passage R)

include hR

theorem pure (a : α) (w : World κ σ) : Along R (Pure.pure a) w := hR.refl _

theorem fail (e : ScriptError) (w : World κ σ) : Along R (Eval.fail e : Eval κ σ α) w := hR.refl _

theorem look (f : Heap κ → α) (w : World κ σ) : Along R (Eval.look f) w := hR.refl _

theorem bind_of {m : Eval κ σ α} {f : α → Eval κ σ β} {w : World κ σ} (hm : Along R m w)
    (hf : ∀ a w', m w = .ok a w' → Along R (f a) w') : Along R (m >>= f) w :=
  Along.bind (R := R) (fun _ _ _ => hR.trans) hm hf

theorem bind {m : Eval κ σ α} {f : α → Eval κ σ β} {w : World κ σ} (hm : Along R m w)
    (hf : ∀ a w', Along R (f a) w') : Along R (m >>= f) w :=
  hR.bind_of hm fun a w' _ => hf a w'

theorem objectFor (method : String) (v : Value) (w : World κ σ) :
    Along R (Eval.objectFor method v) w := by
  cases v with
  | object r => exact hR.pure r w
  | _ => exact hR.bind (hR.look _ w) fun _ w => hR.fail _ w

/-- What is wanted for an object is not done for another value. -/
theorem objectFor_bind {method : String} {v : Value} (hv : v.isObject = false)
    {f : Ref → Eval κ σ α} (w : World κ σ) : Along R (Eval.objectFor method v >>= f) w := by
  refine hR.bind_of (hR.objectFor method v w) fun r w' h => ?_
  cases v with
  | object r => cases hv
  | _ => cases h

theorem argumentObject (function : String) (v : Value) (w : World κ σ) :
    Along R (Eval.argumentObject function v) w := by
  unfold Eval.argumentObject
  split
  · exact hR.pure _ w
  · exact hR.fail _ w

theorem toObject (v : Value) (w : World κ σ) : Along R (Eval.toObject v) w := by
  unfold Eval.toObject
  split
  · exact hR.pure v w
  · split
    · exact hR.wrap ‹_›
    · exact hR.fail _ w

theorem preventExtensions
    (hclose : ∀ (h : Heap κ) (r : Ref), R h (h.update r fun o => { o with extensible := false }))
    (v : Value) (w : World κ σ) : Along R (Eval.preventExtensions v) w :=
  hR.bind (hR.objectFor _ v w) fun r w => hclose w.heap r

variable {caller : Caller κ σ}

/-- Calls go along a relation if the behaviours do that some object runs. -/
theorem calls (hb : ∀ b this args (w : World κ σ), w.heap.Stores b →
    Along R (caller b this args) w) : CallsAlong R caller := fun f this args w => by
  refine hR.bind_of (hR.look _ w) fun behaviour w' hw => ?_
  injection hw with hf hw
  subst hw
  cases behaviour with
  | some b =>
    obtain ⟨o, ho, hcall⟩ := Option.bind_eq_some_iff.mp hf
    cases f with
    | object r => exact hb b this args w ⟨r, o, ho, hcall⟩
    | _ => cases ho
  | none => exact hR.bind (hR.look _ w) fun _ w => hR.fail _ w

variable (hc : CallsAlong R caller)

include hc

theorem get (v : Value) (key : String) (w : World κ σ) : Along R (Eval.get caller v key) w := by
  refine hR.bind (hR.objectFor _ v w) fun _ w => hR.bind (hR.look _ w) fun p w => ?_
  split
  · exact hR.pure _ w
  · exact hc _ v [] w
  · exact hR.pure _ w

theorem invoke (v : Value) (name : String) (args : List Value) (w : World κ σ) :
    Along R (Eval.invoke caller v name args) w := by
  refine hR.bind (hR.get hc v name w) fun method w => hR.bind (hR.look _ w) fun callable w => ?_
  split
  · exact hc method v args w
  · exact hR.fail _ w

theorem firstPrimitive (v : Value) : ∀ (names : List String) (w : World κ σ),
    Along R (Eval.firstPrimitive caller v names) w
  | [], w => hR.fail _ w
  | name :: rest, w => by
    refine hR.bind (hR.get hc v name w) fun method w => hR.bind (hR.look _ w) fun callable w => ?_
    split
    · refine hR.bind (hc method v [] w) fun result w => ?_
      split
      · exact firstPrimitive v rest w
      · exact hR.pure _ w
    · exact firstPrimitive v rest w

theorem toPrimitive (v : Value) (hint : Hint) (w : World κ σ) :
    Along R (Eval.toPrimitive caller v hint) w := by
  unfold Eval.toPrimitive
  split
  · exact hR.firstPrimitive hc v _ w
  · exact hR.pure v w

theorem toNumber (v : Value) (w : World κ σ) : Along R (Eval.toNumber caller v) w :=
  hR.bind (hR.toPrimitive hc v _ w) fun _ w => hR.pure _ w

theorem toInteger (v : Value) (w : World κ σ) : Along R (Eval.toInteger caller v) w :=
  hR.bind (hR.toNumber hc v w) fun _ w => hR.pure _ w

theorem toUint32 (v : Value) (w : World κ σ) : Along R (Eval.toUint32 caller v) w :=
  hR.bind (hR.toNumber hc v w) fun _ w => hR.pure _ w

theorem toText (v : Value) (w : World κ σ) : Along R (Eval.toText caller v) w :=
  hR.bind (hR.toPrimitive hc v _ w) fun _ w => hR.pure _ w

theorem lengthOf (v : Value) (w : World κ σ) : Along R (Eval.lengthOf caller v) w := by
  refine hR.bind (hR.toUint32 hc v w) fun length w => hR.bind (hR.toNumber hc v w) fun x w => ?_
  split
  · exact hR.pure _ w
  · exact hR.fail _ w

theorem field? (v : Value) (key : String) (w : World κ σ) :
    Along R (Eval.field? caller v key) w := by
  refine hR.bind (hR.look _ w) fun present w => ?_
  split
  · exact hR.bind (hR.get hc v key w) fun _ w => hR.pure _ w
  · exact hR.pure _ w

theorem accessorField? (v : Value) (key : String) (w : World κ σ) :
    Along R (Eval.accessorField? caller v key) w := by
  refine hR.bind (hR.field? hc v key w) fun f w => ?_
  cases f with
  | none => exact hR.pure _ w
  | some f =>
    refine hR.bind (hR.look _ w) fun callable w => ?_
    split
    · exact hR.pure _ w
    · exact hR.fail _ w

theorem readDescriptor (v : Value) (w : World κ σ) :
    Along R (Eval.readDescriptor caller v) w := by
  unfold Eval.readDescriptor
  split
  · exact hR.fail _ w
  · refine hR.bind (hR.field? hc v _ w) fun _ w => hR.bind (hR.field? hc v _ w) fun _ w => ?_
    refine hR.bind (hR.field? hc v _ w) fun _ w => hR.bind (hR.field? hc v _ w) fun _ w => ?_
    refine hR.bind (hR.accessorField? hc v _ w) fun _ w => ?_
    refine hR.bind (hR.accessorField? hc v _ w) fun _ w => ?_
    dsimp only
    split
    · exact hR.fail _ w
    · exact hR.pure _ w

theorem getOwnPropertyDescriptor (v key : Value) (w : World κ σ) :
    Along R (Eval.getOwnPropertyDescriptor caller v key) w := by
  refine hR.bind (hR.argumentObject _ v w) fun _ w => hR.bind (hR.toText hc key w) fun _ w => ?_
  exact hR.bind (hR.look _ w) fun _ w => hR.pure _ w

theorem hasOwnProperty (v key : Value) (w : World κ σ) :
    Along R (Eval.hasOwnProperty caller v key) w := by
  refine hR.bind (hR.toText hc key w) fun _ w => hR.bind (hR.toObject v w) fun _ w => ?_
  exact hR.bind (hR.look _ w) fun _ w => hR.pure _ w

theorem holdsAt (o search : Value) (index : Nat) (w : World κ σ) :
    Along R (Eval.holdsAt caller o search index) w := by
  refine hR.bind (hR.look _ w) fun present w => ?_
  split
  · exact hR.bind (hR.get hc o _ w) fun _ w => hR.pure _ w
  · exact hR.pure _ w

theorem searchUp (o search : Value) : ∀ (count index : Nat) (w : World κ σ),
    Along R (Eval.searchUp caller o search index count) w
  | 0, _, w => hR.pure _ w
  | count + 1, index, w => by
    refine hR.bind (hR.holdsAt hc o search index w) fun found w => ?_
    split
    · exact hR.pure _ w
    · exact searchUp o search count (index + 1) w

theorem searchDown (o search : Value) : ∀ (count : Nat) (w : World κ σ),
    Along R (Eval.searchDown caller o search count) w
  | 0, w => hR.pure _ w
  | index + 1, w => by
    refine hR.bind (hR.holdsAt hc o search index w) fun found w => ?_
    split
    · exact hR.pure _ w
    · exact searchDown o search index w

theorem searched (v : Value) (w : World κ σ) : Along R (Eval.searched caller v) w := by
  refine hR.bind (hR.toObject v w) fun o w => hR.bind (hR.get hc o _ w) fun l w => ?_
  exact hR.bind (hR.toUint32 hc l w) fun _ w => hR.pure _ w

theorem indexOf (v search : Value) (fromIndex : Option Value) (w : World κ σ) :
    Along R (Eval.indexOf caller v search fromIndex) w := by
  refine hR.bind (hR.searched hc v w) fun found w => ?_
  obtain ⟨o, length⟩ := found
  dsimp only
  split
  · exact hR.pure _ w
  · cases fromIndex with
    | some i =>
      refine hR.bind (hR.toInteger hc i w) fun x w => ?_
      cases forwardStart? length x with
      | none => exact hR.pure _ w
      | some start => exact hR.searchUp hc o search _ start w
    | none =>
      refine hR.bind (hR.pure _ w) fun x w => ?_
      cases forwardStart? length x with
      | none => exact hR.pure _ w
      | some start => exact hR.searchUp hc o search _ start w

theorem lastIndexOf (v search : Value) (fromIndex : Option Value) (w : World κ σ) :
    Along R (Eval.lastIndexOf caller v search fromIndex) w := by
  refine hR.bind (hR.searched hc v w) fun found w => ?_
  obtain ⟨o, length⟩ := found
  dsimp only
  split
  · exact hR.pure _ w
  · cases fromIndex with
    | some i =>
      exact hR.bind (hR.toInteger hc i w) fun x w => hR.searchDown hc o search _ w
    | none => exact hR.bind (hR.pure _ w) fun x w => hR.searchDown hc o search _ w

/-! ### Integrity -/

omit hc

section

variable (hdefine : ∀ d : Descriptor, d.get = none → d.set = none → d.value = none →
    ∀ (v : Value) (key : String) (w : World κ σ), Along R (Eval.defineOwn caller v key d true) w)
  (hclose : ∀ (h : Heap κ) (r : Ref), R h (h.update r fun o => { o with extensible := false }))

include hdefine

theorem defineAll {v : Value} {describe : Option Property → Descriptor}
    (hd : ∀ p, (describe p).get = none ∧ (describe p).set = none ∧ (describe p).value = none) :
    ∀ (keys : List String) (w : World κ σ), Along R (Eval.defineAll caller v describe keys) w
  | [], w => hR.pure _ w
  | key :: rest, w => by
    refine hR.bind (hR.look _ w) fun p w => ?_
    obtain ⟨hget, hset, hvalue⟩ := hd p
    refine hR.bind (hdefine _ hget hset hvalue v key w) fun _ w => ?_
    exact defineAll hd rest w

include hclose

theorem makeSealed (v : Value) (w : World κ σ) : Along R (Eval.makeSealed caller v) w := by
  refine hR.bind (hR.argumentObject _ v w) fun _ w => hR.bind (hR.look _ w) fun keys w => ?_
  refine hR.bind (hR.defineAll hdefine (fun _ => ⟨rfl, rfl, rfl⟩) keys w) fun _ w => ?_
  exact hR.bind (hR.preventExtensions hclose v w) fun _ w => hR.pure v w

theorem makeFrozen (v : Value) (w : World κ σ) : Along R (Eval.makeFrozen caller v) w := by
  refine hR.bind (hR.argumentObject _ v w) fun _ w => hR.bind (hR.look _ w) fun keys w => ?_
  refine hR.bind (hR.defineAll hdefine (fun _ => ⟨rfl, rfl, rfl⟩) keys w) fun _ w => ?_
  exact hR.bind (hR.preventExtensions hclose v w) fun _ w => hR.pure v w

end

end Heap.Passage

theorem Heap.Growth.alloc {R : Heap κ → Heap κ → Prop} (hR : Heap.Growth R) (o : ObjectRecord κ)
    (w : World κ σ) : Eval.Along R (Eval.alloc o) w := hR.extend (w.heap.extends_push o)

/-! ## Writing -/

namespace Heap.Course

open Eval

variable {made : Heap κ → ObjectRecord κ → Prop}
  {given : Heap κ → Value → String → Descriptor → Prop} {R : Heap κ → Heap κ → Prop}
  (hR : Heap.Course made given R)

include hR

theorem deleteKey (v : Value) (key : String) (strict : Bool) (w : World κ σ) :
    Along R (Eval.delete v key strict) w := by
  refine hR.bind (hR.objectFor _ v w) fun r w => ?_
  refine hR.bind (hR.delete w.heap r key) fun gone w => ?_
  split
  · exact hR.fail _ w
  · exact hR.pure _ w

variable {caller : Caller κ σ} (hc : CallsAlong R caller)

include hc

theorem putWith {v : Value} {key : String} {value : Value} {w : World κ σ}
    (hd : ∀ d : Descriptor, d.value = some value → d.get = none → d.set = none →
      given w.heap v key d) (strict : Bool) :
    Along R (Eval.putWith caller v key value strict) w := by
  cases v with
  | object r =>
    refine hR.bind_of (hR.objectFor _ _ w) fun _ w₁ h₁ => ?_
    refine hR.bind_of (hR.look _ w₁) fun accepted w₂ h₂ => ?_
    split
    · refine hR.bind_of (hR.look _ w₂) fun own w₃ h₃ => ?_
      refine hR.bind_of (hR.look _ w₃) fun found w₄ h₄ => ?_
      cases h₁; cases h₂; cases h₃; cases h₄
      split
      · exact hR.bind (hR.define hc (hd _ rfl rfl rfl) strict) fun _ w => hR.pure _ w
      · exact hR.bind (hc _ _ [value] w) fun _ w => hR.pure _ w
      · exact hR.bind (hR.define hc (hd _ rfl rfl rfl) strict) fun _ w => hR.pure _ w
    · split
      · exact hR.fail _ w₂
      · exact hR.pure _ w₂
  | _ => exact hR.objectFor_bind rfl w

theorem put_each {v : Value} : ∀ {fields : List (String × Value)},
    (∀ field ∈ fields, field.1 ≠ "length") → ∀ w : World κ σ,
      Along R (forIn fields PUnit.unit fun (field : String × Value) (_ : PUnit) => do
        Eval.put caller v field.1 field.2
        Pure.pure (ForInStep.yield PUnit.unit)) w
  | [], _, w => hR.pure _ w
  | field :: fields, hf, w => by
    rw [List.forIn_cons]
    have hd : ∀ d : Descriptor, d.value = some field.2 → d.get = none → d.set = none →
        given w.heap v field.1 d := fun d _ hget hset =>
      hR.plain hget hset fun he => absurd he (hf field (by simp))
    refine hR.bind (hR.bind (hR.putWith hc hd false) fun _ w => hR.pure _ w) fun step w => ?_
    cases step with
    | done _ => exact hR.pure _ w
    | yield _ => exact put_each (fun field h => hf field (by simp [h])) w

theorem writeDescriptor {proto : Value} {w : World κ σ}
    (hproto : made w.heap { kind := .object, prototype := some proto }) (d : Descriptor) :
    Along R (Eval.writeDescriptor caller proto d) w := by
  refine hR.bind (m := Eval.alloc _) (hR.add hproto) fun v w => ?_
  refine hR.bind (hR.put_each hc (fun _ h => Descriptor.ne_length_of_mem_fields h) w) fun _ w => ?_
  exact hR.pure v w

/-- The definition may rely on what was read from the key and from the attributes. -/
theorem defineProperty {v key attributes : Value} {w : World κ σ}
    (hd : Describes given caller v key attributes w) :
    Along R (Eval.defineProperty caller v key attributes) w := by
  unfold Eval.defineProperty
  refine hR.bind_of (hR.argumentObject _ v w) fun _ w' hw => ?_
  obtain rfl : w' = w := by
    unfold Eval.argumentObject at hw
    split at hw
    · cases hw; rfl
    · cases hw
  refine hR.bind_of (hR.toText hc key w') fun name w₁ h₁ => ?_
  refine hR.bind_of (hR.readDescriptor hc attributes w₁) fun d w₂ h₂ => ?_
  exact hR.bind (hR.define hc (hd name w₁ d w₂ h₁ h₂) true) fun _ w => hR.pure v w

theorem define_attributes {d : Descriptor} (hget : d.get = none) (hset : d.set = none)
    (hvalue : d.value = none) (v : Value) (key : String) (w : World κ σ) :
    Along R (Eval.defineOwn caller v key d true) w :=
  hR.define hc (hR.plain hget hset fun _ => hvalue) true

theorem makeSealed (v : Value) (w : World κ σ) : Along R (Eval.makeSealed caller v) w :=
  hR.toPassage.makeSealed (fun _ => hR.define_attributes hc) hR.close v w

theorem makeFrozen (v : Value) (w : World κ σ) : Along R (Eval.makeFrozen caller v) w :=
  hR.toPassage.makeFrozen (fun _ => hR.define_attributes hc) hR.close v w

end Heap.Course

/-- A relation that evolves admits every new object, and definitions with plain lengths. -/
theorem Heap.Evolution.course {S : Value → Prop} {R : Heap κ → Heap κ → Prop}
    (hR : Heap.Evolution S R) :
    Heap.Course (fun _ _ => True) (fun _ v key d => PlainLength S v key d.value) R where
  toPassage := hR.toPassage
  add _ := hR.extend (Heap.extends_push _ _)
  close := hR.close
  delete := hR.delete
  define hc _ _ _ w hd strict := hR.define hc hd strict w
  plain _ _ hlength _ hkey _ hy := nomatch (hlength hkey).symm.trans hy

end Es5
