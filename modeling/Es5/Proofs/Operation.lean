import Es5.Proofs.NewRealm

/-!
# Operations along a relation between heaps

A relation that evolves holds along every operation and along every provided function that edits
nothing directly and gives no object as a length that has to be plain.

* `Operation.isEdit`, `Operation.reads`: the direct edits, and the operations that only read.
* `Operation.Regular`, `Intrinsic.Regular`: operations and calls to which the relation extends.
* `Intrinsic.writes`: provided functions that write; the others only add objects.
* `Operation.Admitted`, `Intrinsic.Admitted`: the same for a relation that restricts which objects
  are made and which properties are defined.
* **`Course.run`**, **`Evolution.run`**, …: operations and provided functions.
-/

namespace Es5

variable {κ σ α : Type}

/-! ## Operations and provided functions -/

/-- Whether this is a direct edit. -/
def Operation.isEdit : Operation → Bool
  | store .. | unstore .. | setPrototype .. => true
  | _ => false

/-- Whether an operation does no more than read, convert and call. -/
def Operation.reads : Operation → Bool
  | put .. | delete .. | define .. | defineProperty .. => false
  | preventExtensions _ | preventExtensionsOf _ | makeSealed _ | makeFrozen _ => false
  | newRealm | newObject _ | newArray .. | store .. | unstore .. | setPrototype .. => false
  | _ => true

/-- Whether an operation is no direct edit and gives no object as a length of `S`. -/
def Operation.Regular (S : Value → Prop) (caller : Caller κ σ) (w : World κ σ) : Operation → Prop
  | put v key value _ => PlainLength S v key (some value)
  | define v key d _ => PlainLength S v key d.value
  | defineProperty v key attributes => DescribesPlain S caller v key attributes w
  | store .. | unstore .. | setPrototype .. => False
  | _ => True

/-- Whether a call of a provided function gives no object as a length of `S`. -/
def Intrinsic.Regular (S : Value → Prop) (caller : Caller κ σ) (args : List Value)
    (w : World κ σ) : Intrinsic → Prop
  | defineProperty =>
    DescribesPlain S caller (argument args 0) (argument args 1) (argument args 2) w
  | _ => True

/-- Whether a provided function writes, or makes an object by assignments. -/
def Intrinsic.writes : Intrinsic → Bool
  | defineProperty | getOwnPropertyDescriptor _ => true
  | preventExtensions | makeFrozen | makeSealed => true
  | _ => false

theorem Eval.argumentObject_eq {v : Value} (hv : v.isObject = false) (function : String)
    (w : World κ σ) :
    argumentObject function v w = .error (.threw (.staticOnPrimitive function)) w := by
  rw [argumentObject, if_neg (by simp [hv])]
  rfl

namespace Heap.Passage

open Eval

variable {R : Heap κ → Heap κ → Prop} (hR : Heap.Passage R) {caller : Caller κ σ}
  (hc : CallsAlong R caller)

include hR

theorem tag (v : Value) (w : World κ σ) : Along R (Eval.tag v) w := by
  cases v with
  | undefined | null => exact hR.pure _ w
  | _ =>
    refine hR.bind (hR.toObject _ w) fun o w => hR.bind (hR.look _ w) fun _ w => ?_
    exact hR.pure _ w

theorem preventExtensionsOf
    (hclose : ∀ (h : Heap κ) (r : Ref), R h (h.update r fun o => { o with extensible := false }))
    (v : Value) (w : World κ σ) : Along R (Eval.preventExtensionsOf v) w := by
  refine hR.bind (hR.argumentObject _ v w) fun _ w => ?_
  exact hR.bind (hR.preventExtensions hclose v w) fun _ w => hR.pure v w

theorem lookObject (function : String) (v : Value) (f : Heap κ → α) (w : World κ σ) :
    Along R (Eval.argumentObject function v >>= fun _ => Eval.look f) w :=
  hR.bind (hR.argumentObject _ v w) fun _ w => hR.look f w

theorem onPrimitive {v : Value} (hv : v.isObject = false) (function : String)
    (f : Unit → Eval κ σ α) (w : World κ σ) :
    Along R (Eval.argumentObject function v >>= f) w :=
  hR.bind_of (hR.argumentObject _ v w) fun _ _ h => by
    rw [argumentObject_eq hv] at h
    cases h

include hc

theorem reads {behaviour : Intrinsic → κ} {op : Operation} (hop : op.reads = true)
    (w : World κ σ) : Along R (op.run behaviour caller) w := by
  cases op with
  | get v key => exact hR.get hc v key w
  | hasProperty | canPut | getOwnProperty | getProperty | outline => exact hR.refl w.heap
  | call f this args => exact hc f this args w
  | invoke v name args => exact hR.invoke hc v name args w
  | toPrimitive v hint => exact hR.toPrimitive hc v hint w
  | toNumber v => exact hR.toNumber hc v w
  | toInteger v => exact hR.toInteger hc v w
  | toUint32 v => exact hR.toUint32 hc v w
  | toText v => exact hR.toText hc v w
  | toObject v => exact hR.toObject v w
  | tag v => exact hR.tag v w
  | hasOwnProperty v key => exact hR.hasOwnProperty hc v key w
  | indexOf v search fromIndex => exact hR.indexOf hc v search fromIndex w
  | lastIndexOf v search fromIndex => exact hR.lastIndexOf hc v search fromIndex w
  | readDescriptor v => exact hR.readDescriptor hc v w
  | getOwnPropertyDescriptor v key => exact hR.getOwnPropertyDescriptor hc v key w
  | keys v | isExtensible v | isSealed v | isFrozen v => exact hR.lookObject _ v _ w
  | _ => cases hop

/-- Provided functions only read, but for those that write and are given an object. -/
theorem provided {i : Intrinsic} {this : Value} {args : List Value} {w : World κ σ}
    (hi : i.writes = true → (argument args 0).isObject = false)
    (hnew : ∀ proto, i = .toObject proto →
      R w.heap (w.heap.push { kind := .object, prototype := some proto })) :
    Along R (i.run caller this args) w := by
  cases i with
  | nothing => exact hR.pure _ w
  | toObject proto =>
    unfold Intrinsic.run
    dsimp only
    split
    · exact hnew proto rfl
    · exact hnew proto rfl
    · exact hR.toObject _ w
  | valueOf => exact hR.toObject this w
  | tag => exact hR.bind (hR.tag this w) fun _ w => hR.pure _ w
  | hasOwnProperty => exact hR.bind (hR.hasOwnProperty hc this _ w) fun _ w => hR.pure _ w
  | indexOf => exact hR.bind (hR.indexOf hc this _ _ w) fun _ w => hR.pure _ w
  | lastIndexOf => exact hR.bind (hR.lastIndexOf hc this _ _ w) fun _ w => hR.pure _ w
  | isExtensible | isFrozen | isSealed =>
    exact hR.bind (hR.lookObject _ _ _ w) fun _ w => hR.pure _ w
  | defineProperty | preventExtensions | makeFrozen | makeSealed =>
    exact hR.onPrimitive (hi rfl) _ _ w
  | getOwnPropertyDescriptor proto =>
    refine hR.bind_of (hR.onPrimitive (hi rfl) _ _ w) fun _ _ h => ?_
    rw [Eval.getOwnPropertyDescriptor, bind_of_error (argumentObject_eq (hi rfl) _ w)] at h
    cases h

end Heap.Passage

/-- **Provided functions only add objects**, but for those that write and are given an object. -/
theorem Heap.Growth.provided {R : Heap κ → Heap κ → Prop} (hR : Heap.Growth R)
    {caller : Caller κ σ} (hc : Eval.CallsAlong R caller) {i : Intrinsic} {this : Value}
    {args : List Value} {w : World κ σ}
    (hi : i.writes = true → (argument args 0).isObject = false) :
    Eval.Along R (i.run caller this args) w :=
  hR.toPassage.provided hc hi fun _ _ => hR.extend (Heap.extends_push _ _)

/-! ## Courses -/

/-- Whether an operation makes objects and defines properties as `made` and `given` allow. -/
def Operation.Admitted (made : Heap κ → ObjectRecord κ → Prop)
    (given : Heap κ → Value → String → Descriptor → Prop) (caller : Caller κ σ) (w : World κ σ) :
    Operation → Prop
  | put v key value _ => ∀ d : Descriptor, d.value = some value → d.get = none → d.set = none →
    given w.heap v key d
  | define v key d _ => given w.heap v key d
  | defineProperty v key attributes => Eval.Describes given caller v key attributes w
  | newObject proto => made w.heap { kind := .object, prototype := proto }
  | newArray values proto =>
    made w.heap { kind := .array, properties := arrayProperties values, prototype := proto }
  | store .. | unstore .. | setPrototype .. => False
  | _ => True

/-- Whether a call of a provided function makes objects and defines properties as allowed. -/
def Intrinsic.Admitted (made : Heap κ → ObjectRecord κ → Prop)
    (given : Heap κ → Value → String → Descriptor → Prop) (caller : Caller κ σ)
    (args : List Value) (w : World κ σ) : Intrinsic → Prop
  | toObject proto => made w.heap { kind := .object, prototype := some proto }
  | defineProperty =>
    Eval.Describes given caller (argument args 0) (argument args 1) (argument args 2) w
  | getOwnPropertyDescriptor proto => ∀ d w',
    Eval.getOwnPropertyDescriptor caller (argument args 0) (argument args 1) w = .ok d w' →
      made w'.heap { kind := .object, prototype := some proto }
  | _ => True

namespace Heap.Course

open Eval

variable {made : Heap κ → ObjectRecord κ → Prop}
  {given : Heap κ → Value → String → Descriptor → Prop} {R : Heap κ → Heap κ → Prop}
  (hR : Heap.Course made given R) {caller : Caller κ σ} (hc : CallsAlong R caller)

include hR hc

/-- **A course holds along every admitted operation**, if it does along new realms. -/
theorem run {behaviour : Intrinsic → κ} {op : Operation} {w : World κ σ}
    (hrealm : Along R (Eval.newRealm behaviour) w) (hop : op.Admitted made given caller w) :
    Along R (op.run behaviour caller) w := by
  cases op with
  | put v key value strict => exact hR.putWith hc hop strict
  | delete v key strict => exact hR.deleteKey v key strict w
  | define v key d strict => exact hR.define hc hop strict
  | defineProperty v key attributes => exact hR.defineProperty hc hop
  | preventExtensions v => exact hR.preventExtensions hR.close v w
  | preventExtensionsOf v => exact hR.preventExtensionsOf hR.close v w
  | makeSealed v => exact hR.makeSealed hc v w
  | makeFrozen v => exact hR.makeFrozen hc v w
  | newRealm => exact hrealm
  | newObject | newArray => exact hR.add hop
  | store | unstore | setPrototype => exact hop.elim
  | _ => exact hR.toPassage.reads hc rfl w

/-- **A course holds along every admitted call of a provided function.** -/
theorem provided {i : Intrinsic} {this : Value} {args : List Value} {w : World κ σ}
    (hi : i.Admitted made given caller args w) : Along R (i.run caller this args) w := by
  cases i with
  | toObject proto =>
    refine hR.toPassage.provided hc (fun h => nomatch h) fun _ he => ?_
    cases he
    exact hR.add hi
  | defineProperty => exact hR.defineProperty hc hi
  | getOwnPropertyDescriptor proto =>
    refine hR.bind_of (hR.getOwnPropertyDescriptor hc _ _ w) fun d w' hd => ?_
    cases d with
    | some d => exact hR.writeDescriptor hc (hi _ w' hd) d
    | none => exact hR.pure _ w'
  | preventExtensions => exact hR.preventExtensionsOf hR.close _ w
  | makeFrozen => exact hR.makeFrozen hc _ w
  | makeSealed => exact hR.makeSealed hc _ w
  | _ => exact hR.toPassage.provided hc (fun h => nomatch h) fun _ h => nomatch h

end Heap.Course

namespace Heap.Evolution

open Eval

variable {S : Value → Prop} {R : Heap κ → Heap κ → Prop} (hR : Heap.Evolution S R)
  {caller : Caller κ σ} (hc : CallsAlong R caller)

include hR hc

/-- **A relation that evolves holds along every regular operation.** -/
theorem run {behaviour : Intrinsic → κ} {op : Operation} {w : World κ σ}
    (hop : op.Regular S caller w) : Along R (op.run behaviour caller) w := by
  refine hR.course.run hc (hR.extend (newRealm_extends w)) ?_
  cases op with
  | put v key value strict =>
    intro d hvalue _ _
    rw [hvalue]
    exact hop
  | define | defineProperty => exact hop
  | store | unstore | setPrototype => exact hop.elim
  | _ => exact trivial

/-- **A relation that evolves holds along every regular call of a provided function.** -/
theorem provided {i : Intrinsic} {this : Value} {args : List Value} {w : World κ σ}
    (hi : i.Regular S caller args w) : Along R (i.run caller this args) w := by
  refine hR.course.provided hc ?_
  cases i with
  | defineProperty => exact hi
  | getOwnPropertyDescriptor => exact fun _ _ _ => trivial
  | _ => exact trivial

end Heap.Evolution

end Es5
