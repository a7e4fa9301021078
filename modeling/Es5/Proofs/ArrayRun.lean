import Es5.Proofs.Length
import Es5.Proofs.Rule

/-!
# Runs on arrays

A new array has a length above all its indices. That stays so in every run that edits nothing
directly and only gives plain values as its length, whatever else the run does and whatever
functions are called meanwhile.

* `Rule.plainLengths`: no direct edits, and no object as a length of one array.
* `arrayRecord`: the record of a new array.
* **`Eval.newArray_stays_covered`**: a new array in every run under the rule.
-/

namespace Es5

variable {σ : Type}

/-! ## Plain lengths -/

namespace Rule

/-- Whether giving `x` to a key of `target` is no way to make an object the length of `v`. -/
def isPlainFor (v target : Value) (key : String) (x : Option Value) : Bool :=
  target != v || key != "length" || !x.any (·.isObject)

/-- Whether a definition as `attributes` describes it makes no object the length of `v`. -/
def describesPlainFor (v : Value) (caller : Caller (Behaviour σ) σ)
    (target key attributes : Value) (w : World (Behaviour σ) σ) : Bool :=
  match Eval.toText caller key w with
  | .error .. => true
  | .ok name w =>
    match Eval.readDescriptor caller attributes w with
    | .error .. => true
    | .ok d _ => isPlainFor v target name d.value

/-- Whether an act makes no object the length of `v`. -/
def givesPlainFor (v : Value) (caller : Caller (Behaviour σ) σ) (w : World (Behaviour σ) σ) :
    Act → Bool
  | .perform (.put target key value _) => isPlainFor v target key (some value)
  | .perform (.define target key d _) => isPlainFor v target key d.value
  | .perform (.defineProperty target key attributes) =>
    describesPlainFor v caller target key attributes w
  | .provided .defineProperty _ args =>
    describesPlainFor v caller (argument args 0) (argument args 1) (argument args 2) w
  | _ => true

/-- No direct edits, and no object is given as the length of `v`. -/
def plainLengths (v : Value) : Rule σ := fun caller act w =>
  noEdits caller act w && givesPlainFor v caller w act

variable {v target key attributes : Value} {name : String} {x : Option Value}
  {caller : Caller (Behaviour σ) σ} {w : World (Behaviour σ) σ}

theorem plainLength_of_isPlainFor (h : isPlainFor v target name x = true) :
    PlainLength (· = v) target name x := by
  rintro rfl rfl y rfl
  simpa [isPlainFor] using h

theorem describesPlain_of_describesPlainFor
    (h : describesPlainFor v caller target key attributes w = true) :
    DescribesPlain (· = v) caller target key attributes w := by
  intro name w₁ d w₂ h₁ h₂
  rw [describesPlainFor, h₁] at h
  simp only [h₂] at h
  exact plainLength_of_isPlainFor h

theorem plainLengths_ensures (v : Value) : (plainLengths v : Rule σ).Ensures (· = v) := by
  intro caller act w h
  obtain ⟨hedit, h⟩ := (Bool.and_eq_true _ _).mp h
  cases act with
  | perform op =>
    cases op with
    | store | unstore | setPrototype => cases hedit
    | put | define => exact plainLength_of_isPlainFor h
    | defineProperty => exact describesPlain_of_describesPlainFor h
    | _ => trivial
  | provided i =>
    cases i with
    | defineProperty => exact describesPlain_of_describesPlainFor h
    | _ => trivial
  | _ => trivial

end Rule

/-! ## New arrays -/

theorem indexKey_of_mem_elements {values : List Value} {key : String}
    (h : key ∈ Properties.keys (values.mapIdx fun i v => (indexKey i, Property.plain v))) :
    ∃ i < values.length, key = indexKey i := by
  obtain ⟨x, hx, rfl⟩ := List.mem_map.mp h
  obtain ⟨i, hi, rfl⟩ := List.mem_mapIdx.mp hx
  exact ⟨i, hi, rfl⟩

/-- The record of a new array. -/
def arrayRecord {κ : Type} (values : List Value) (proto : Option Value) : ObjectRecord κ :=
  { kind := .array, properties := arrayProperties values, prototype := proto }

variable {κ : Type}

theorem arrayRecord_lengthIs {values : List Value} (hlen : values.length ≤ maxLength)
    (proto : Option Value) :
    (arrayRecord values proto : ObjectRecord κ).LengthIs values.length true := by
  refine ⟨rfl, ?_, hlen⟩
  show List.lookup "length" (_ ++ _) = _
  rw [List.lookup_append]
  have hnone : List.lookup "length" (values.mapIdx fun i v => (indexKey i, Property.plain v)) =
      none := Properties.get?_eq_none_iff.mpr fun hmem => by
    obtain ⟨i, hi, hkey⟩ := indexKey_of_mem_elements hmem
    have hindex := arrayIndex?_eq_some_iff.mpr ⟨Nat.lt_of_lt_of_le hi hlen, hkey⟩
    exact ne_length_of_arrayIndex? hindex rfl
  rw [hnone]
  rfl

theorem arrayRecord_indicesBelow (values : List Value) (proto : Option Value) :
    (arrayRecord values proto : ObjectRecord κ).IndicesBelow values.length := by
  intro key hkey i hi
  simp only [arrayRecord, arrayProperties, Properties.keys, List.map_append,
    List.mem_append] at hkey
  rcases hkey with hmem | hmem
  · obtain ⟨j, hj, rfl⟩ := indexKey_of_mem_elements hmem
    rw [indexKey_injective (arrayIndex?_eq_some_iff.mp hi).2] at hj
    exact hj
  · rw [List.mem_singleton.mp hmem, arrayIndex?_length] at hi
    cases hi

/--
**A new array has a length above all its indices in every run** that edits nothing directly and
only gives plain values as its length. The acts of the run may succeed, be refused or throw.
-/
theorem Eval.newArray_stays_covered {values : List Value} (hlen : values.length ≤ maxLength)
    (proto : Option Value) (w : World (Behaviour σ) σ) :
    ∃ v w', newArray values proto w = .ok v w' ∧
      ∀ (depth : Nat) (p : Program σ), p.Obeys (Rule.plainLengths v) depth w' →
        ∃ o, (after (p.run (runBehaviour depth)) w').heap.record? v = some o ∧ o.IsCovered := by
  refine ⟨_, _, alloc_eq (arrayRecord values proto) w, fun depth p hp => ?_⟩
  have hkeeps := hp.along (Heap.keepsLength_writes _).evolution (Rule.plainLengths_ensures _)
  have ho : (w.heap.push (arrayRecord values proto))[w.heap.size]? =
      some (arrayRecord values proto) := Array.getElem?_push_size
  obtain ⟨o, n, writable, ho', hl, -, hbelow⟩ :=
    hkeeps _ _ _ _ ho (arrayRecord_lengthIs hlen proto)
  exact ⟨o, ho', n, writable, hl, hbelow rfl (arrayRecord_indicesBelow values proto)⟩

/-- A new array of two elements that is shortened, and then gets an element past its end. -/
theorem Eval.newArray_stays_covered_resized :
    let p (v : Value) : Program Unit :=
      .perform (.put v "length" (.boolean true) false) fun _ =>
        .perform (.put v "5" .null false) fun _ => .done .undefined
    ∃ v w', newArray [.null, .null] none ⟨#[], ()⟩ = .ok v w' ∧
      (p v).Obeys (Rule.plainLengths v) 0 w' ∧
        ∃ o, (after ((p v).run (runBehaviour 0)) w').heap.record? v = some o ∧ o.IsCovered := by
  intro p
  have hlen : [Value.null, Value.null].length ≤ maxLength := by decide +kernel
  obtain ⟨v, w', hv, hruns⟩ :=
    newArray_stays_covered hlen none (⟨#[], ()⟩ : World (Behaviour Unit) Unit)
  have hp : (p v).Obeys (Rule.plainLengths v) 0 w' := by
    cases hv
    rfl
  exact ⟨v, w', hv, hp, hruns 0 (p v) hp⟩

end Es5
