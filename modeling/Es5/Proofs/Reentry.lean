import Es5.Proofs.Agreement
import Es5.Proofs.ArrayRun

/-!
# Lengths given by code

The value given as the length of an array is converted before the array changes, and the
conversion may call functions that change the array. The length that the conversion gives is then
compared with the length from before it. So a length may be accepted as a longer one although the
array has got indices above it meanwhile.

* `Operation.DefinesLength`: the operations that give an array a length.
* `ObjectRecord.EndsCovered`: when the array ends with a length above all its indices.
* **`Operation.isCovered_iff_endsCovered`**: exactly then, whatever the conversion did.
-/

namespace Es5

variable {κ σ : Type}

/--
Operations that define the length of the array at `r` by a descriptor with the value `v`. An
assignment does so while the length is writable.
-/
inductive Operation.DefinesLength (r : Ref) (v : Value) (writable : Bool) :
    Descriptor → Operation → Prop where
  | define (d : Descriptor) (hd : d.value = some v) (strict : Bool) :
    DefinesLength r v writable d (.define (.object r) "length" d strict)
  | put (hw : writable = true) (strict : Bool) :
    DefinesLength r v writable { value := some v } (.put (.object r) "length" v strict)

/--
When an array of length `n` ends covered whose length is defined by `d`: its record is `o` after
the value was converted, to the length `m` if that succeeded. A length that is accepted has to
be above the indices of `o` by itself unless it is below `n`, when the array is truncated.
-/
def ObjectRecord.EndsCovered (o : ObjectRecord κ) (n : Nat) (d : Descriptor) (m : Option Nat) :
    Prop :=
  ∃ n' writable, o.LengthIs n' writable ∧
    match m with
    | some m => (d.MayResize writable → n ≤ m → o.IndicesBelow m) ∧
      (¬d.MayResize writable → o.IndicesBelow n')
    | none => o.IndicesBelow n'

namespace Heap

variable {h : Heap κ} {r : Ref} {o : ObjectRecord κ} {m n : Nat} {w : Bool}

/-- The definition of a length, where a length that was read-only before is so still. -/
theorem setLength_isCovered_iff (ho : h[r]? = some o) (hl : o.LengthIs n w) (hm : m ≤ maxLength)
    {former : Nat × Bool} (hw : w = true → former.2 = true) (d : Descriptor) :
    ∃ o', (h.setLength r former m d).2[r]? = some o' ∧
      (o'.IsCovered ↔ o.EndsCovered former.1 d (some m)) := by
  have hends : o.EndsCovered former.1 d (some m) ↔
      (d.MayResize w → former.1 ≤ m → o.IndicesBelow m) ∧ (¬d.MayResize w → o.IndicesBelow n) := by
    refine ⟨fun ⟨n', w', hl', hcovered⟩ => ?_, fun hcovered => ⟨n, w, hl, hcovered⟩⟩
    obtain ⟨rfl, rfl⟩ := hl.eq hl'
    exact hcovered
  rw [hends]
  rcases setLength_cases ho hl hm former d with ⟨hrefused, he⟩ | ⟨hresize, hle, w', he⟩ |
    ⟨hresize, hle, o', he, hcovered⟩
  · have hresize : ¬d.MayResize w := fun hr => hrefused ⟨hr, Or.inr (hw hr.2.2)⟩
    refine ⟨o, he, ?_⟩
    rw [hl.isCovered_iff]
    exact ⟨fun hb => ⟨fun hr => absurd hr hresize, fun _ => hb⟩, fun hb => hb.2 hresize⟩
  · refine ⟨_, he, ?_⟩
    rw [(hl.insert hm w').isCovered_iff, ObjectRecord.indicesBelow_insert_length]
    exact ⟨fun hb => ⟨fun _ _ => hb, fun hr => absurd hresize hr⟩, fun hb => hb.1 hresize hle⟩
  · exact ⟨o', he, fun _ => ⟨fun _ hle' => absurd hle' hle, fun hr => absurd hresize hr⟩,
      fun _ => hcovered⟩

end Heap

namespace Eval

variable {caller : Caller κ σ} {w : World κ σ} {r : Ref} {o : ObjectRecord κ} {n : Nat}
  {writable : Bool} {v : Value}

theorem kind?_of_lengthIs (ho : w.heap[r]? = some o) (hl : o.LengthIs n writable) :
    w.heap.kind? (.object r) = some .array := by
  rw [Heap.kind?, Heap.record?, ho]
  exact congrArg some hl.kind

/-- The conversion of the value comes first, and then one change of the heap. -/
theorem after_define_length (ho : w.heap[r]? = some o) (hl : o.LengthIs n writable)
    {d : Descriptor} (hd : d.value = some v) (strict : Bool) :
    after (defineOwn caller (.object r) "length" d strict) w =
      match lengthOf caller v w with
      | .ok m w' => { w' with heap := (w'.heap.setLength r (n, writable) m d).2 }
      | .error _ w' => w' := by
  have hrule : defineOnArray caller r "length" d w =
      (lengthOf caller v >>= fun m => change (·.setLength r (n, writable) m d)) w := by
    rw [← Heap.arrayLength_of_lengthIs ho hl, defineOnArray_length hd]
  rw [after_defineOwn, if_pos (kind?_of_lengthIs ho hl), after, hrule]
  simp only [bind, EStateM.bind]
  cases lengthOf caller v w <;> rfl

/-- An assignment to a length that is writable defines it. -/
theorem after_put_length (ho : w.heap[r]? = some o) (hl : o.LengthIs n true) (v : Value)
    (strict : Bool) : after (putWith caller (.object r) "length" v strict) w =
      after (defineOwn caller (.object r) "length" { value := some v } strict) w := by
  have hown : w.heap.own? (.object r) "length" = some (.length n true) := by
    rw [Heap.own?_eq ho, hl.own]
  have hcan : w.heap.canPut (.object r) "length" = true := by
    rw [Heap.canPut, hown]
    rfl
  have hput : putWith caller (.object r) "length" v strict w =
      (defineOwn caller (.object r) "length" { value := some v } strict >>=
        fun _ => pure ()) w := by
    simp only [putWith, objectFor, look, bind, EStateM.bind, pure, EStateM.pure, hcan, hown,
      if_true, Property.length]
  rw [after, hput]
  simp only [after, bind, EStateM.bind]
  cases defineOwn caller (.object r) "length" { value := some v } strict w <;> rfl

/-- An assignment to a length that is read-only changes nothing. -/
theorem after_put_readOnly (ho : w.heap[r]? = some o) (hl : o.LengthIs n false) (v : Value)
    (strict : Bool) : after (putWith caller (.object r) "length" v strict) w = w := by
  have hcan : w.heap.canPut (.object r) "length" = false := by
    rw [Heap.canPut, Heap.own?_eq ho, hl.own]
    rfl
  simp only [after, putWith, objectFor, look, bind, EStateM.bind, pure, EStateM.pure, hcan,
    if_false, Bool.false_eq_true]
  cases strict <;> rfl

end Eval

/-! ## Conversions without direct edits -/

variable {w : World (Behaviour σ) σ} {r : Ref} {o : ObjectRecord (Behaviour σ)} {n depth : Nat}
  {writable : Bool} {v : Value}

/-- A conversion leaves an array as one, and does not make its length writable again. -/
theorem Eval.lengthOf_keepsLength (hv : Rule.noEdits.ObeyedBy depth (lengthOf · v) w) :
    Along (Heap.KeepsLength fun _ => False) (lengthOf (runBehaviour depth) v) w := by
  have hR := (@Heap.keepsLength_writes (Behaviour σ) fun _ => False).evolution
  have hunder := hR.lengthOf (hR.behaviourUnder (hR.keeps Rule.noEdits_ensures) depth) v w
  exact hunder.congr hv.symm

/--
**When an array ends covered whose length is given by code.** The functions that the conversion
calls may do to the array what they like but edit it directly. An assignment to a read-only length
does not convert the value and changes nothing.
-/
theorem Operation.isCovered_iff_endsCovered (ho : w.heap[r]? = some o)
    (hl : o.LengthIs n writable) (hv : Rule.noEdits.ObeyedBy depth (Eval.lengthOf · v) w) :
    (∀ d op, DefinesLength r v writable d op → ∃ o₁ o₂,
      (Eval.after (Eval.lengthOf (runBehaviour depth) v) w).heap[r]? = some o₁ ∧
      (Eval.after (op.run .provided (runBehaviour depth)) w).heap[r]? = some o₂ ∧
      (o₂.IsCovered ↔
        o₁.EndsCovered n d (Eval.result? (Eval.lengthOf (runBehaviour depth) v) w))) ∧
    (writable = false → ∀ strict, Eval.after
      (run .provided (runBehaviour depth) (.put (.object r) "length" v strict)) w = w) := by
  obtain ⟨o₁, n₁, w₁, ho₁, hl₁, hw₁, -⟩ := Eval.lengthOf_keepsLength hv r o n writable ho hl
  have hdefine : ∀ (d : Descriptor) (strict : Bool), d.value = some v → ∃ o₂,
      (Eval.after (Eval.defineOwn (runBehaviour depth) (.object r) "length" d strict)
        w).heap[r]? = some o₂ ∧ (o₂.IsCovered ↔
          o₁.EndsCovered n d (Eval.result? (Eval.lengthOf (runBehaviour depth) v) w)) := by
    intro d strict hd
    rw [Eval.after_define_length ho hl hd, Eval.result?]
    cases hm : Eval.lengthOf (runBehaviour depth) v w with
    | ok m w' =>
      rw [Eval.after_of_ok hm] at ho₁
      exact Heap.setLength_isCovered_iff ho₁ hl₁ (Eval.lengthOf_le hm) hw₁ d
    | error e w' =>
      rw [Eval.after_of_error hm] at ho₁
      exact ⟨o₁, ho₁, Iff.rfl⟩
  refine ⟨fun d op hop => ?_, fun hw strict => ?_⟩
  · cases hop with
    | define _ hd strict =>
      obtain ⟨o₂, ho₂, hiff⟩ := hdefine d strict hd
      exact ⟨o₁, o₂, ho₁, ho₂, hiff⟩
    | put hw strict =>
      cases hw
      obtain ⟨o₂, ho₂, hiff⟩ := hdefine { value := some v } strict rfl
      rw [← Eval.after_put_length ho hl] at ho₂
      exact ⟨o₁, o₂, ho₁, ho₂, hiff⟩
  · cases hw
    exact Eval.after_put_readOnly ho hl v strict

/-- User code that puts an element at index one of the array at `0` and returns true. -/
def outgrow : Value → List Value → Program Unit := fun _ _ =>
  .perform (.put (.object 0) "1" .null false) fun _ => .done (.boolean true)

/-- An empty array, a function that runs `outgrow`, and an object that it converts. -/
def outgrowWorld : World (Behaviour Unit) Unit :=
  ⟨#[arrayRecord [] none, { kind := .function, call := some (.user outgrow) },
    { kind := .object, properties := [("valueOf", .plain (.object 1))] }], ()⟩

/-- An empty array that ends with the length one and an element at index one. -/
theorem Operation.isCovered_iff_endsCovered_outgrow :
    let op : Operation := .put (.object 0) "length" (.object 2) false
    (arrayRecord [] none : ObjectRecord (Behaviour Unit)).IsCovered ∧
      Rule.noEdits.ObeyedBy 1 (Eval.lengthOf · (.object 2)) outgrowWorld ∧
      ∃ o₁ o₂, (Eval.after (Eval.lengthOf (runBehaviour 1) (.object 2))
          outgrowWorld).heap[0]? = some o₁ ∧
        (Eval.after (op.run .provided (runBehaviour 1)) outgrowWorld).heap[0]? = some o₂ ∧
        ¬o₂.IsCovered ∧ ¬o₁.EndsCovered 0 { value := some (.object 2) } (some 1) := by
  intro op
  have hl : (arrayRecord [] none : ObjectRecord (Behaviour Unit)).LengthIs 0 true :=
    arrayRecord_lengthIs (by decide +kernel) none
  have hv : Rule.noEdits.ObeyedBy 1 (Eval.lengthOf · (.object 2)) outgrowWorld :=
    (Eval.Agrees.lengthOf (Eval.Agrees.behaviourUnder 1) _).eq_of_ends (by decide +kernel)
  have hm : Eval.result? (Eval.lengthOf (runBehaviour 1) (.object 2)) outgrowWorld = some 1 := by
    decide +kernel
  obtain ⟨o₁, o₂, ho₁, ho₂, hiff⟩ :=
    (isCovered_iff_endsCovered rfl hl hv).1 _ op (.put rfl false)
  have hproperties : ((Eval.after (op.run .provided (runBehaviour 1))
      outgrowWorld).heap[0]?.map (·.properties)) =
        some [("length", .length 1 true), ("1", .plain .null)] := by decide +kernel
  have huncovered : ¬o₂.IsCovered := by
    rintro ⟨n, writable, hl₂, hbelow⟩
    rw [ho₂] at hproperties
    have hps : o₂.properties = [("length", .length 1 true), ("1", .plain .null)] :=
      Option.some.inj hproperties
    have hone : (1 : Nat) < n := hbelow "1" (by rw [hps]; decide +kernel) 1 (by decide +kernel)
    have hown : o₂.own? "length" = some (.length 1 true) := by
      rw [ObjectRecord.own?, hps]
      rfl
    have hle : (1 : Nat) ≤ maxLength := by decide +kernel
    have hn := (hl₂.eq ⟨hl₂.kind, hown, hle⟩).1
    omega
  rw [hm] at hiff
  exact ⟨⟨0, true, hl, arrayRecord_indicesBelow [] none⟩, hv, o₁, o₂, ho₁, ho₂, huncovered,
    fun h => huncovered (hiff.mpr h)⟩

end Es5
