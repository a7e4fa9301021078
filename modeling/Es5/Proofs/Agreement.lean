import Es5.Proofs.Rule

/-!
# Agreement up to exhaustion

The operations do the same with two ways to call functions, if the calls do. One of the two may be
exhausted instead, and then so is the operation. A run under a rule is such a pair with the run
itself, so it is the same unless it ends at an act that the rule does not admit.

* `Eval.Agrees`: two actions that end alike unless the first is exhausted.
* `Agrees.get`, `Agrees.putWith`, …: the functions that make up operations.
* **`Program.obeys_of_ends`**: a run that does not end at a refused act obeys the rule.
-/

namespace Es5

variable {κ σ α β : Type}

namespace Eval

/-- Two actions that end alike, unless the first is exhausted. -/
def Agrees (m₁ m₂ : Eval κ σ α) : Prop :=
  ∀ w, (∃ w', m₁ w = .error .exhausted w') ∨ m₁ w = m₂ w

namespace Agrees

theorem refl (m : Eval κ σ α) : Agrees m m := fun _ => Or.inr rfl

theorem bind {m₁ m₂ : Eval κ σ α} {f₁ f₂ : α → Eval κ σ β} (hm : Agrees m₁ m₂)
    (hf : ∀ a, Agrees (f₁ a) (f₂ a)) : Agrees (m₁ >>= f₁) (m₂ >>= f₂) := fun w => by
  simp only [Bind.bind, EStateM.bind]
  rcases hm w with ⟨w', he⟩ | he
  · exact Or.inl ⟨w', by rw [he]⟩
  · rw [← he]
    cases m₁ w with
    | ok a w' => exact hf a w'
    | error e w' => exact Or.inr rfl

/-- The actions differ in what follows the first step. -/
theorem after_same {m : Eval κ σ α} {f₁ f₂ : α → Eval κ σ β} (hf : ∀ a, Agrees (f₁ a) (f₂ a)) :
    Agrees (m >>= f₁) (m >>= f₂) := bind (refl m) hf

/-- The actions differ in the first step. -/
theorem before_same {m₁ m₂ : Eval κ σ α} {f : α → Eval κ σ β} (hm : Agrees m₁ m₂) :
    Agrees (m₁ >>= f) (m₂ >>= f) := bind hm fun a => refl (f a)

theorem ite {c : Prop} [Decidable c] {m₁ m₁' m₂ m₂' : Eval κ σ α} (hm : Agrees m₁ m₂)
    (hm' : Agrees m₁' m₂') : Agrees (if c then m₁ else m₁') (if c then m₂ else m₂') := by
  by_cases h : c
  · rw [if_pos h, if_pos h]
    exact hm
  · rw [if_neg h, if_neg h]
    exact hm'

/-! ## Reading and converting -/

variable {c₁ c₂ : Caller κ σ} (hc : ∀ b this args, Agrees (c₁ b this args) (c₂ b this args))

include hc

theorem call (f this : Value) (args : List Value) :
    Agrees (Eval.call c₁ f this args) (Eval.call c₂ f this args) :=
  after_same fun behaviour => by
    cases behaviour with
    | some b => exact hc b this args
    | none => exact refl _

theorem get (v : Value) (key : String) : Agrees (Eval.get c₁ v key) (Eval.get c₂ v key) :=
  after_same fun _ => after_same fun p => by
    rcases p with _ | ⟨_ | ⟨_ | getter⟩⟩
    · exact refl _
    · exact refl _
    · exact refl _
    · exact call hc getter v []

theorem invoke (v : Value) (name : String) (args : List Value) :
    Agrees (Eval.invoke c₁ v name args) (Eval.invoke c₂ v name args) :=
  bind (get hc v name) fun method => after_same fun _ => ite (call hc method v args) (refl _)

theorem firstPrimitive (v : Value) : ∀ names : List String,
    Agrees (Eval.firstPrimitive c₁ v names) (Eval.firstPrimitive c₂ v names)
  | [] => refl _
  | name :: rest =>
    bind (get hc v name) fun method => after_same fun _ =>
      ite (bind (call hc method v []) fun _ => ite (firstPrimitive v rest) (refl _))
        (firstPrimitive v rest)

theorem toPrimitive (v : Value) (hint : Hint) :
    Agrees (Eval.toPrimitive c₁ v hint) (Eval.toPrimitive c₂ v hint) :=
  ite (firstPrimitive hc v hint.methods) (refl _)

theorem toNumber (v : Value) : Agrees (Eval.toNumber c₁ v) (Eval.toNumber c₂ v) :=
  before_same (toPrimitive hc v .number)

theorem toInteger (v : Value) : Agrees (Eval.toInteger c₁ v) (Eval.toInteger c₂ v) :=
  before_same (toNumber hc v)

theorem toUint32 (v : Value) : Agrees (Eval.toUint32 c₁ v) (Eval.toUint32 c₂ v) :=
  before_same (toNumber hc v)

theorem toText (v : Value) : Agrees (Eval.toText c₁ v) (Eval.toText c₂ v) :=
  before_same (toPrimitive hc v .string)

theorem lengthOf (v : Value) : Agrees (Eval.lengthOf c₁ v) (Eval.lengthOf c₂ v) :=
  bind (toUint32 hc v) fun _ => before_same (toNumber hc v)

theorem field? (v : Value) (key : String) :
    Agrees (Eval.field? c₁ v key) (Eval.field? c₂ v key) :=
  after_same fun _ => ite (before_same (get hc v key)) (refl _)

theorem accessorField? (v : Value) (key : String) :
    Agrees (Eval.accessorField? c₁ v key) (Eval.accessorField? c₂ v key) :=
  before_same (field? hc v key)

theorem readDescriptor (v : Value) :
    Agrees (Eval.readDescriptor c₁ v) (Eval.readDescriptor c₂ v) := by
  refine ite (refl _) ?_
  refine bind (field? hc v _) fun _ => bind (field? hc v _) fun _ => ?_
  refine bind (field? hc v _) fun _ => bind (field? hc v _) fun _ => ?_
  exact bind (accessorField? hc v _) fun _ => before_same (accessorField? hc v _)

theorem getOwnPropertyDescriptor (v key : Value) :
    Agrees (Eval.getOwnPropertyDescriptor c₁ v key) (Eval.getOwnPropertyDescriptor c₂ v key) :=
  after_same fun _ => before_same (toText hc key)

theorem hasOwnProperty (v key : Value) :
    Agrees (Eval.hasOwnProperty c₁ v key) (Eval.hasOwnProperty c₂ v key) :=
  before_same (toText hc key)

theorem holdsAt (o search : Value) (index : Nat) :
    Agrees (Eval.holdsAt c₁ o search index) (Eval.holdsAt c₂ o search index) :=
  after_same fun _ => ite (before_same (get hc o _)) (refl _)

theorem searchUp (o search : Value) : ∀ count index : Nat,
    Agrees (Eval.searchUp c₁ o search index count) (Eval.searchUp c₂ o search index count)
  | 0, _ => refl _
  | count + 1, index =>
    bind (holdsAt hc o search index) fun _ => ite (refl _) (searchUp o search count (index + 1))

theorem searchDown (o search : Value) : ∀ count : Nat,
    Agrees (Eval.searchDown c₁ o search count) (Eval.searchDown c₂ o search count)
  | 0 => refl _
  | index + 1 =>
    bind (holdsAt hc o search index) fun _ => ite (refl _) (searchDown o search index)

theorem searched (v : Value) : Agrees (Eval.searched c₁ v) (Eval.searched c₂ v) :=
  after_same fun o => bind (get hc o _) fun l => before_same (toUint32 hc l)

theorem indexOf (v search : Value) (fromIndex : Option Value) :
    Agrees (Eval.indexOf c₁ v search fromIndex) (Eval.indexOf c₂ v search fromIndex) := by
  refine bind (searched hc v) fun found => ?_
  obtain ⟨o, length⟩ := found
  refine ite (refl _) ?_
  cases fromIndex with
  | some i =>
    refine bind (toInteger hc i) fun x => ?_
    dsimp only
    cases forwardStart? length x with
    | none => exact refl _
    | some start => exact searchUp hc o search _ start
  | none =>
    refine after_same fun x => ?_
    dsimp only
    cases forwardStart? length x with
    | none => exact refl _
    | some start => exact searchUp hc o search _ start

theorem lastIndexOf (v search : Value) (fromIndex : Option Value) :
    Agrees (Eval.lastIndexOf c₁ v search fromIndex) (Eval.lastIndexOf c₂ v search fromIndex) := by
  refine bind (searched hc v) fun found => ?_
  obtain ⟨o, length⟩ := found
  refine ite (refl _) ?_
  cases fromIndex with
  | some i => exact bind (toInteger hc i) fun x => searchDown hc o search _
  | none => exact after_same fun x => searchDown hc o search _

/-! ## Writing -/

theorem defineOnArray (r : Ref) (key : String) (d : Descriptor) :
    Agrees (Eval.defineOnArray c₁ r key d) (Eval.defineOnArray c₂ r key d) := by
  refine ite ?_ (refl _)
  cases d.value with
  | none => exact refl _
  | some v => exact after_same fun _ => before_same (lengthOf hc v)

theorem defineOwn (v : Value) (key : String) (d : Descriptor) (strict : Bool) :
    Agrees (Eval.defineOwn c₁ v key d strict) (Eval.defineOwn c₂ v key d strict) :=
  after_same fun r => after_same fun _ => ite (before_same (defineOnArray hc r key d)) (refl _)

theorem putWith (v : Value) (key : String) (value : Value) (strict : Bool) :
    Agrees (Eval.putWith c₁ v key value strict) (Eval.putWith c₂ v key value strict) := by
  refine after_same fun _ => after_same fun _ => ite ?_ (refl _)
  refine after_same fun own => after_same fun found => ?_
  split
  · exact before_same (defineOwn hc v key _ strict)
  · exact before_same (call hc _ v [value])
  · exact before_same (defineOwn hc v key _ strict)

theorem put_each (v : Value) : ∀ fields : List (String × Value),
    Agrees (forIn fields PUnit.unit fun (field : String × Value) (_ : PUnit) => do
        Eval.put c₁ v field.1 field.2
        pure (ForInStep.yield PUnit.unit))
      (forIn fields PUnit.unit fun (field : String × Value) (_ : PUnit) => do
        Eval.put c₂ v field.1 field.2
        pure (ForInStep.yield PUnit.unit))
  | [] => by
    rw [List.forIn_nil, List.forIn_nil]
    exact refl _
  | field :: fields => by
    rw [List.forIn_cons, List.forIn_cons]
    refine bind (before_same (putWith hc v field.1 field.2 false)) fun step => ?_
    cases step with
    | done _ => exact refl _
    | yield _ => exact put_each v fields

theorem writeDescriptor (proto : Value) (d : Descriptor) :
    Agrees (Eval.writeDescriptor c₁ proto d) (Eval.writeDescriptor c₂ proto d) :=
  after_same fun v => before_same (put_each hc v d.fields)

theorem defineProperty (v key attributes : Value) :
    Agrees (Eval.defineProperty c₁ v key attributes) (Eval.defineProperty c₂ v key attributes) :=
  after_same fun _ => bind (toText hc key) fun name => bind (readDescriptor hc attributes) fun d =>
    before_same (defineOwn hc v name d true)

theorem defineAll (v : Value) (describe : Option Property → Descriptor) : ∀ keys : List String,
    Agrees (Eval.defineAll c₁ v describe keys) (Eval.defineAll c₂ v describe keys)
  | [] => refl _
  | key :: rest => after_same fun _ => bind (defineOwn hc v key _ true) fun _ =>
    defineAll v describe rest

theorem makeSealed (v : Value) : Agrees (Eval.makeSealed c₁ v) (Eval.makeSealed c₂ v) :=
  after_same fun _ => after_same fun keys => before_same (defineAll hc v _ keys)

theorem makeFrozen (v : Value) : Agrees (Eval.makeFrozen c₁ v) (Eval.makeFrozen c₂ v) :=
  after_same fun _ => after_same fun keys => before_same (defineAll hc v _ keys)

/-! ## Operations and provided functions -/

theorem operation (behaviour : Intrinsic → κ) (op : Operation) :
    Agrees (op.run behaviour c₁) (op.run behaviour c₂) := by
  cases op with
  | get v key => exact get hc v key
  | put v key value strict => exact putWith hc v key value strict
  | define v key d strict => exact defineOwn hc v key d strict
  | call f this args => exact call hc f this args
  | invoke v name args => exact invoke hc v name args
  | toPrimitive v hint => exact toPrimitive hc v hint
  | toNumber v => exact toNumber hc v
  | toInteger v => exact toInteger hc v
  | toUint32 v => exact toUint32 hc v
  | toText v => exact toText hc v
  | hasOwnProperty v key => exact hasOwnProperty hc v key
  | indexOf v search fromIndex => exact indexOf hc v search fromIndex
  | lastIndexOf v search fromIndex => exact lastIndexOf hc v search fromIndex
  | readDescriptor v => exact readDescriptor hc v
  | defineProperty v key attributes => exact defineProperty hc v key attributes
  | getOwnPropertyDescriptor v key => exact getOwnPropertyDescriptor hc v key
  | makeSealed v => exact makeSealed hc v
  | makeFrozen v => exact makeFrozen hc v
  | _ => exact refl _

theorem provided (i : Intrinsic) (this : Value) (args : List Value) :
    Agrees (i.run c₁ this args) (i.run c₂ this args) := by
  cases i with
  | hasOwnProperty => exact before_same (hasOwnProperty hc this _)
  | indexOf => exact before_same (indexOf hc this _ _)
  | lastIndexOf => exact before_same (lastIndexOf hc this _ _)
  | defineProperty => exact defineProperty hc _ _ _
  | getOwnPropertyDescriptor proto =>
    refine bind (getOwnPropertyDescriptor hc _ _) fun d => ?_
    cases d with
    | some d => exact writeDescriptor hc proto d
    | none => exact refl _
  | makeFrozen => exact makeFrozen hc _
  | makeSealed => exact makeSealed hc _
  | _ => exact refl _

end Agrees

end Eval

/-! ## Runs under a rule -/

namespace Eval.Agrees

variable {rule : Rule σ}

theorem onlyIf (admitted : World (Behaviour σ) σ → Bool) {m₁ m₂ : Run σ α}
    (hm : Agrees m₁ m₂) : Agrees (Run.onlyIf admitted m₁) m₂ := fun w => by
  rw [Run.onlyIf]
  split
  · exact hm w
  · exact Or.inl ⟨w, rfl⟩

theorem caught {m₁ m₂ : Run σ α} (hm : Agrees m₁ m₂) :
    Agrees (Run.caught m₁) (Run.caught m₂) := fun w => by
  simp only [Run.caught]
  rcases hm w with ⟨w', he⟩ | he
  · exact Or.inl ⟨w', by rw [he]⟩
  · exact Or.inr (by rw [he])

theorem completion {m₁ m₂ : Run σ Value} (hm : Agrees m₁ m₂) :
    Agrees (Run.completion m₁) (Run.completion m₂) := fun w => by
  simp only [Run.completion]
  rcases hm w with ⟨w', he⟩ | he
  · exact Or.inl ⟨w', by rw [he]⟩
  · exact Or.inr (by rw [he])

theorem runUnder {c₁ c₂ : Caller (Behaviour σ) σ}
    (hc : ∀ b this args, Agrees (c₁ b this args) (c₂ b this args)) :
    ∀ p : Program σ, Agrees (p.runUnder rule c₁) (p.run c₂)
  | .done _ => refl _
  | .fail _ => refl _
  | .crash _ => refl _
  | .perform op next =>
    bind (onlyIf _ (caught (operation hc .provided op))) fun a => runUnder hc (next a)
  | .function _ _ next => bind (onlyIf _ (refl _)) fun f => runUnder hc (next f)
  | .build _ _ next => bind (onlyIf _ (refl _)) fun v => runUnder hc (next v)
  | .attempt body next => bind (completion (runUnder hc body)) fun c => runUnder hc (next c)
  | .ask next => after_same fun w => runUnder hc (next w.host)
  | .tell _ next => after_same fun _ => runUnder hc next

theorem behaviourUnder : ∀ (depth : Nat) (b : Behaviour σ) (this : Value) (args : List Value),
    Agrees (Es5.behaviourUnder rule depth b this args) (runBehaviour depth b this args)
  | 0, _, _, _ => refl _
  | depth + 1, b, this, args => by
    have hc := behaviourUnder depth
    cases b with
    | provided i => exact onlyIf _ (provided hc i this args)
    | user body => exact runUnder hc (body this args)

end Eval.Agrees

/-- Whether an action ends without being exhausted. -/
def Eval.ends (m : Eval κ σ α) (w : World κ σ) : Bool :=
  match m w with
  | .error .exhausted _ => false
  | _ => true

theorem Eval.Agrees.eq_of_ends {m₁ m₂ : Eval κ σ α} (hm : Agrees m₁ m₂) {w : World κ σ}
    (hends : m₁.ends w = true) : m₁ w = m₂ w := by
  rcases hm w with ⟨w', he⟩ | he
  · rw [ends, he] at hends
    cases hends
  · exact he

/-- **A run that does not end at a refused act obeys the rule.** -/
theorem Program.obeys_of_ends {rule : Rule σ} {depth : Nat} {p : Program σ}
    {w : World (Behaviour σ) σ}
    (h : Eval.ends (p.runUnder rule (behaviourUnder rule depth)) w = true) :
    p.Obeys rule depth w :=
  (Eval.Agrees.runUnder (Eval.Agrees.behaviourUnder depth) p).eq_of_ends h

end Es5
