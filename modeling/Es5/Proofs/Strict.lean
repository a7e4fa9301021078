import Es5.Proofs.Writes

/-!
# Strict and lenient writes

An assignment, a deletion and a definition do the same whether they are strict or not, and call
the same functions. Only a refusal shows the difference: a strict one throws.

* `Heap.assigned?`: the definition that an assignment makes.
* `Operation.Defines`: the definition that an operation comes to.
* `Operation.Refused`: a deletion, an assignment or a definition is refused.
* `Operation.Defines.run_eq`: how an operation goes on from such a definition.
* `Eval.Reports`: strict and lenient runs differ in how they report a refusal.
* **`Eval.putWith_reports`**, **`delete_reports`**, **`defineOwn_reports`**: so do the three writes.
-/

namespace Es5

variable {κ σ α : Type}

/-! ## Refused operations -/

/-- The definition that an assignment makes, unless it calls a setter. -/
def Heap.assigned? (h : Heap κ) (v : Value) (key : String) (value : Value) : Option Descriptor :=
  match h.own? v key, h.find? v key with
  | some (.data ..), _ => some { value := some value }
  | _, some (.accessor _ (some _) _ _) => none
  | _, _ => some
    { value := some value, writable := some true, enumerable := some true,
      configurable := some true }

namespace Operation

/--
In the world `w`, the operation comes to define `key` of the object at `r` by `d` in the world
`w'`, which differs if the key and the descriptor have to be read from values first.
-/
inductive Defines (caller : Caller κ σ) (w : World κ σ) :
    Operation → Ref → String → Descriptor → World κ σ → Prop where
  | define (r : Ref) (key : String) (d : Descriptor) (strict : Bool) :
    Defines caller w (.define (.object r) key d strict) r key d w
  | put {r : Ref} {key : String} {value : Value} {d : Descriptor}
    (hcan : w.heap.canPut (.object r) key = true)
    (hd : w.heap.assigned? (.object r) key value = some d) (strict : Bool) :
    Defines caller w (.put (.object r) key value strict) r key d w
  | defineProperty {r : Ref} {key attributes : Value} {name : String} {d : Descriptor}
    {w₁ w₂ : World κ σ} (hkey : Eval.toText caller key w = .ok name w₁)
    (hd : Eval.readDescriptor caller attributes w₁ = .ok d w₂) :
    Defines caller w (.defineProperty (.object r) key attributes) r name d w₂

/-- The operation is refused, and ends in the world `w'`. -/
inductive Refused (caller : Caller κ σ) (w : World κ σ) : Operation → World κ σ → Prop where
  | readOnly {r : Ref} {key : String} (hcan : w.heap.canPut (.object r) key = false)
    (value : Value) (strict : Bool) : Refused caller w (.put (.object r) key value strict) w
  | delete {v : Value} {key : String} {w' : World κ σ}
    (h : Eval.delete v key false w = .ok false w') (strict : Bool) :
    Refused caller w (.delete v key strict) w'
  | define {op : Operation} {r : Ref} {key : String} {d : Descriptor} {w₁ w' : World κ σ}
    (hop : Defines caller w op r key d w₁)
    (h : Eval.defineOwn caller (.object r) key d false w₁ = .ok false w') :
    Refused caller w op w'

end Operation

namespace Eval

/--
The lenient run of an action and its strict run: they are the same unless it is refused, and then
the lenient one answers `silent` and the strict one throws in the same world.
-/
def Reports (refused : World κ σ → Prop) (silent : α) (run : Bool → Eval κ σ α)
    (w : World κ σ) : Prop :=
  (∃ w' e, refused w' ∧ run false w = .ok silent w' ∧ run true w = .error (.threw e) w' ∧
      e.kind = .typeError) ∨
    (∀ w', ¬refused w') ∧ run true w = run false w

variable {caller : Caller κ σ} {w : World κ σ} {v : Value} {r : Ref} {key : String}

/-! ## Definitions and deletions -/

theorem defineOwn_reports (caller : Caller κ σ) (w : World κ σ) (v : Value) (key : String)
    (d : Descriptor) (strict : Bool) :
    Reports (Operation.Refused caller w (.define v key d strict)) false
      (defineOwn caller v key d) w := by
  have hrefused : ∀ w', Operation.Refused caller w (.define v key d strict) w' →
      defineOwn caller v key d false w = .ok false w' := by
    rintro w' (_ | _ | ⟨⟨⟩, h⟩)
    exact h
  rw [Reports, defineOwn_strict]
  rcases h : defineOwn caller v key d false w with ⟨_ | _, w'⟩ | ⟨e, w'⟩
  · cases v with
    | object r => exact Or.inl ⟨w', _, .define (.define r key d strict) h, rfl, rfl, rfl⟩
    | _ => cases h
  · exact Or.inr ⟨fun w' hr => (nomatch h.symm.trans (hrefused w' hr)), rfl⟩
  · exact Or.inr ⟨fun w' hr => (nomatch h.symm.trans (hrefused w' hr)), rfl⟩

/-- A deletion ends where its rule ends: a refusal at most throws. -/
theorem delete_object (r : Ref) (key : String) (strict : Bool) (w : World κ σ) :
    delete (.object r) key strict w =
      if !(w.heap.delete r key).1 && strict then
        .error (.threw (.undeletable key)) { w with heap := (w.heap.delete r key).2 }
      else .ok (w.heap.delete r key).1 { w with heap := (w.heap.delete r key).2 } := by
  simp only [delete, objectFor, change, bind, EStateM.bind, pure, EStateM.pure]
  split <;> rfl

theorem delete_reports (caller : Caller κ σ) (w : World κ σ) (v : Value) (key : String)
    (strict : Bool) :
    Reports (Operation.Refused caller w (.delete v key strict)) false (delete v key) w := by
  have hrefused : ∀ w', Operation.Refused caller w (.delete v key strict) w' →
      delete v key false w = .ok false w' := by
    rintro w' (_ | ⟨h, _⟩ | ⟨⟨⟩, _⟩)
    exact h
  cases v with
  | object r =>
    cases hgone : (w.heap.delete r key).1 with
    | false =>
      have h : delete (.object r) key false w =
          .ok false { w with heap := (w.heap.delete r key).2 } := by
        rw [delete_object, hgone]
        rfl
      refine Or.inl ⟨_, .undeletable key, .delete h strict, h, ?_, rfl⟩
      rw [delete_object, hgone]
      rfl
    | true =>
      have h : ∀ strict, delete (.object r) key strict w =
          .ok true { w with heap := (w.heap.delete r key).2 } := fun strict => by
        rw [delete_object, hgone]
        rfl
      exact Or.inr ⟨fun w' hr => (nomatch (h false).symm.trans (hrefused w' hr)),
        (h true).trans (h false).symm⟩
  | _ => exact Or.inr ⟨fun w' hr => (nomatch hrefused w' hr), rfl⟩

/-! ## Assignments -/

/-- An assignment is refused, or makes a definition, or calls a setter. -/
theorem putWith_cases (caller : Caller κ σ) (r : Ref) (key : String) (value : Value)
    (w : World κ σ) :
    (w.heap.canPut (.object r) key = false ∧
      ∀ strict, putWith caller (.object r) key value strict w =
        if strict then .error (.threw (.readOnly key)) w else .ok () w) ∨
    w.heap.canPut (.object r) key = true ∧
      ((∃ d, w.heap.assigned? (.object r) key value = some d ∧
        ∀ strict, putWith caller (.object r) key value strict w =
          (defineOwn caller (.object r) key d strict >>= fun _ => pure ()) w) ∨
      (w.heap.assigned? (.object r) key value = none ∧ ∃ setter,
        ∀ strict, putWith caller (.object r) key value strict w =
          (call caller setter (.object r) [value] >>= fun _ => pure ()) w)) := by
  cases hcan : w.heap.canPut (.object r) key with
  | false =>
    refine Or.inl ⟨rfl, fun strict => ?_⟩
    simp only [putWith, objectFor, look, bind, EStateM.bind, pure, EStateM.pure, hcan,
      Bool.false_eq_true, if_false]
    cases strict <;> rfl
  | true =>
    refine Or.inr ⟨rfl, ?_⟩
    simp only [putWith, objectFor, look, bind, EStateM.bind, pure, EStateM.pure, hcan, if_true,
      Heap.assigned?]
    rcases w.heap.own? (.object r) key with _ | ⟨_ | _⟩ <;>
      rcases w.heap.find? (.object r) key with _ | ⟨_ | ⟨_, _ | setter⟩⟩
    all_goals first
      | exact Or.inl ⟨_, rfl, fun _ => rfl⟩
      | exact Or.inr ⟨rfl, _, fun _ => rfl⟩

theorem putWith_reports (caller : Caller κ σ) (w : World κ σ) (v : Value) (key : String)
    (value : Value) (strict : Bool) :
    Reports (Operation.Refused caller w (.put v key value strict)) ()
      (putWith caller v key value) w := by
  cases v with
  | object r =>
    rcases putWith_cases caller r key value w with ⟨hcan, hput⟩ |
      ⟨hcan, ⟨d, hd, hput⟩ | ⟨hd, setter, hput⟩⟩
    · exact Or.inl ⟨w, _, .readOnly hcan value strict, hput false, hput true, rfl⟩
    · rw [Reports, hput, hput]
      rcases defineOwn_reports caller w (.object r) key d strict with
        ⟨w', e, -, hlenient, hstrict, he⟩ | ⟨hr, hsame⟩
      · exact Or.inl ⟨w', e, .define (.put hcan hd strict) hlenient, bind_of_ok hlenient,
          bind_of_error hstrict, he⟩
      · refine Or.inr ⟨?_, by simp only [bind, EStateM.bind, hsame]⟩
        rintro w' (⟨hcan', _⟩ | _ | ⟨⟨⟩ | ⟨_, hd', _⟩, h⟩)
        · exact absurd (hcan.symm.trans hcan') (by decide)
        · cases hd.symm.trans hd'
          exact hr w' (.define (.define r key d strict) h)
    · refine Or.inr ⟨?_, (hput true).trans (hput false).symm⟩
      rintro w' (⟨hcan', _⟩ | _ | ⟨⟨⟩ | ⟨_, hd', _⟩, h⟩)
      · exact absurd (hcan.symm.trans hcan') (by decide)
      · cases hd.symm.trans hd'
  | _ =>
    refine Or.inr ⟨?_, rfl⟩
    rintro w' (_ | _ | ⟨⟨⟩, _⟩)

/-! ## Definitions by an object -/

theorem defineProperty_object (r : Ref) (key attributes : Value) (w : World κ σ) :
    defineProperty caller (.object r) key attributes w =
      (toText caller key >>= fun name => readDescriptor caller attributes >>= fun d =>
        defineOwn caller (.object r) name d true >>= fun _ => pure (.object r)) w := rfl

/-- The definition through an object that describes it, from its last step on. -/
theorem defineProperty_eq {key attributes : Value} {name : String} {d : Descriptor}
    {w₁ w₂ : World κ σ} (hkey : toText caller key w = .ok name w₁)
    (hd : readDescriptor caller attributes w₁ = .ok d w₂) :
    defineProperty caller (.object r) key attributes w =
      (defineOwn caller (.object r) name d true >>= fun _ => pure (.object r)) w₂ := by
  rw [defineProperty_object, bind_of_ok hkey, bind_of_ok hd]

end Eval

/-- How an operation goes on that comes to define a property. -/
theorem Operation.Defines.run_eq (behaviour : Intrinsic → κ) {caller : Caller κ σ}
    {w w' : World κ σ} {op : Operation} {r : Ref} {key : String} {d : Descriptor}
    (h : Defines caller w op r key d w') : ∃ (strict : Bool) (answer : Bool → op.Answer),
      op.run behaviour caller w =
        (Eval.defineOwn caller (.object r) key d strict >>= fun b => pure (answer b)) w' := by
  cases h with
  | define _ _ _ strict => exact ⟨strict, id, by simp only [id, bind_pure]; rfl⟩
  | @put _ _ value _ hcan hd strict =>
    rcases Eval.putWith_cases caller r key value w with ⟨hcan', -⟩ |
      ⟨-, ⟨d', hd', hput⟩ | ⟨hd', -⟩⟩
    · exact absurd (hcan.symm.trans hcan') (by decide)
    · cases hd.symm.trans hd'
      exact ⟨strict, fun _ => (), hput strict⟩
    · cases hd.symm.trans hd'
  | defineProperty hkey hd =>
    exact ⟨true, fun _ => .object r, Eval.defineProperty_eq hkey hd⟩

end Es5
