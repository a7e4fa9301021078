import Es5.Proofs.Agreement
import Es5.Proofs.Refusal
import Es5.Proofs.Strict

/-!
# Objects after refusals and errors

A write that is refused or ends in an error leaves every object as it was, if no function is called
that writes. The one exception is the truncation of an array that a permanent element blocks, which
deletes the elements above it.

* `Heap.setLength_of_refused`: what the refused rules leave.
* `Operation.Blocked`, `Eval.not_blocked_of_readOnly`: the exception, and that frozen arrays are none.
* `Rule.quiet`: no function writes to an object.
* **`Operation.refusals_leave_objects`**: refusals and errors leave every object as it was.
-/

namespace Es5

variable {κ σ α β : Type}

/-! ## Refused rules -/

/-- A writable property that refuses a value refuses it also where it is to stay writable. -/
theorem Descriptor.refuses_writable {d : Descriptor} {v v' : Value} {e c extensible : Bool}
    (h : ({ d with value := some v } : Descriptor).applyTo? extensible
      (some (.data v' true e c)) = none) :
    ({ d with value := some v, writable := some true } : Descriptor).applyTo? extensible
      (some (.data v' true e c)) = none := by
  obtain rfl : c = false := configurable_of_refused h
  rw [applyTo?_data] at h ⊢
  have hpermitted : ({ d with value := some v, writable := some true } : Descriptor).permittedOn
      (.data v' true e false) =
        ({ d with value := some v } : Descriptor).permittedOn (.data v' true e false) := by
    simp [permittedOn, isGeneric, isData, switches, keepsFixed]
  simpa [hpermitted] using h

namespace Heap

variable {h : Heap κ} {r : Ref} {key : String} {d : Descriptor} {i m : Nat}

theorem define_of_refused (hf : (h.define r key d).1 = false) : (h.define r key d).2 = h := by
  cases ho : h[r]? with
  | none => rw [define_of_none ho]
  | some o =>
    rcases define_cases ho key d with ⟨-, he⟩ | ⟨p, -, he⟩
    · rw [he]
    · rw [he] at hf
      cases hf

theorem delete_of_refused (hf : (h.delete r key).1 = false) : (h.delete r key).2 = h := by
  cases ho : h[r]? with
  | none => rw [delete_of_none ho]
  | some o =>
    rcases delete_cases ho key with ⟨-, he⟩ | ⟨p, -, ⟨-, he⟩ | ⟨-, he⟩⟩
    · rw [he]
    · rw [he]
    · rw [he] at hf
      cases hf

theorem defineElement_of_refused (hf : (h.defineElement r i key d).1 = false) :
    (h.defineElement r i key d).2 = h := by
  rw [defineElement] at hf ⊢
  dsimp only at hf ⊢
  split at hf
  · rw [if_pos ‹_›]
  · rw [if_neg ‹_›]
    rcases he : h.define r key d with ⟨_ | _, h'⟩
    · have hkept := define_of_refused (congrArg Prod.fst he)
      rw [he] at hkept
      exact hkept
    · rw [he] at hf
      dsimp only at hf
      split at hf <;> cases hf

/--
A permanent element is in the way of a deletion of the elements from `m` on, and the property
`length` admits the definition that asks for it.
-/
def Blocks (h : Heap κ) (r : Ref) (m : Nat) (d : Descriptor) : Prop :=
  ∃ o i, h[r]? = some o ∧ ¬o.Refuses "length" d ∧ m ≤ i ∧ i < maxLength ∧ o.Pins i

theorem truncate_of_refused (hf : (h.truncate r m d).1 = false) :
    (h.truncate r m d).2 = h ∨ h.Blocks r m { d with writable := some true } := by
  rw [truncate] at hf ⊢
  cases ho : h[r]? with
  | none =>
    rw [define_of_none ho]
    exact Or.inl rfl
  | some o =>
    rcases define_cases ho "length" { d with writable := some true } with
      ⟨-, he⟩ | ⟨p, hp, he⟩
    · rw [he]
      exact Or.inl rfl
    · rw [he] at hf
      dsimp only at hf
      have hadmits : ¬o.Refuses "length" { d with writable := some true } := fun hrefuses => by
        cases hp.symm.trans hrefuses
      have ho₁ : (h.update r (·.insert "length" p))[r]? = some (o.insert "length" p) :=
        getElem?_update_self ho _
      rcases hs : (h.update r (·.insert "length" p)).deleteElements r
        ((h.update r (·.insert "length" p)).indicesFrom r m) with ⟨_ | i, h₂⟩
      · rw [hs] at hf
        dsimp only at hf
        split at hf <;> cases hf
      · obtain ⟨hmem, hpins⟩ := pins_of_deleteElements _ ho₁ (congrArg Prod.fst hs)
        obtain ⟨hle, hlt⟩ := le_of_mem_indicesFrom ho₁ hmem
        exact Or.inr
          ⟨o, i, ho, hadmits, hle, hlt, (ObjectRecord.pins_insert_length hlt).mp hpins⟩

/-- Only a truncation that a permanent element blocks is refused after a change. -/
theorem setLength_of_refused {former : Nat × Bool}
    (hf : (h.setLength r former m d).1 = false) :
    (h.setLength r former m d).2 = h ∨ m < former.1 ∧ former.2 = true ∧
      h.Blocks r m { d with value := some (lengthValue m), writable := some true } := by
  rw [setLength] at hf ⊢
  split at hf
  · rw [if_pos ‹_›]
    exact Or.inl (define_of_refused hf)
  · rename_i hle
    rw [if_neg hle]
    split at hf
    · rw [if_pos ‹_›]
      exact Or.inl rfl
    · rename_i hwritable
      rw [if_neg hwritable]
      exact (truncate_of_refused hf).imp_right fun hb => ⟨by omega, by simpa using hwritable, hb⟩

/-- A length that is above another one is that of a data property. -/
theorem own?_of_arrayLength {n : Nat} {writable : Bool} (hl : h.arrayLength r = (n, writable))
    (hm : m < n) : ∃ v e c, h.own? (.object r) "length" = some (.data v writable e c) := by
  rw [arrayLength] at hl
  split at hl
  · cases hl
    exact ⟨_, _, _, ‹_›⟩
  · cases hl
    omega

/-- A writable length admits the same values whether or not it is to stay writable. -/
theorem Blocks.of_writable {n : Nat} {v : Value} (hl : h.arrayLength r = (n, true)) (hm : m < n)
    (hb : h.Blocks r m { d with value := some v, writable := some true }) :
    h.Blocks r m { d with value := some v } := by
  obtain ⟨o, i, ho, hadmits, hpins⟩ := hb
  obtain ⟨v', e, c, hown⟩ := own?_of_arrayLength hl hm
  rw [own?_eq ho] at hown
  refine ⟨o, i, ho, fun hrefuses => hadmits ?_, hpins⟩
  rw [ObjectRecord.Refuses, hown] at hrefuses ⊢
  exact Descriptor.refuses_writable hrefuses

end Heap

/-! ## Refused definitions -/

/-- The same objects but for the one at `r`, and possibly new ones. -/
def Heap.ExtendsBut (r : Ref) (h h' : Heap κ) : Prop :=
  ∀ (r' : Ref) (o : ObjectRecord κ), r' ≠ r → h[r']? = some o → h'[r']? = some o

theorem Heap.extends_growth : Heap.Growth (@Heap.Extends κ) where
  extend h := h
  trans h₁₂ h₂₃ r o ho := h₂₃ r o (h₁₂ r o ho)

theorem Heap.Blocks.of_extends {h h' : Heap κ} {r : Ref} {m : Nat} {d : Descriptor}
    {k : ObjectClass} (hext : h.Extends h') (hk : h.kind? (.object r) = some k)
    (hb : h'.Blocks r m d) : h.Blocks r m d := by
  obtain ⟨o, i, ho', hrest⟩ := hb
  obtain ⟨o', ho : h[r]? = some o', -⟩ := Option.map_eq_some_iff.mp hk
  cases (hext r o' ho).symm.trans ho'
  exact ⟨o, i, ho, hrest⟩

namespace Eval

/--
The definition is the truncation of an array that a permanent element blocks: it gives a lesser
length, and nothing else is in its way. The length is writable, and its property admits the change.
-/
def Blocked (caller : Caller κ σ) (w : World κ σ) (r : Ref) (key : String) (d : Descriptor) :
    Prop :=
  w.heap.kind? (.object r) = some .array ∧ key = "length" ∧ ∃ v m n w', d.value = some v ∧
    lengthOf caller v w = .ok m w' ∧ w.heap.arrayLength r = (n, true) ∧ m < n ∧
    w.heap.Blocks r m { d with value := some (Heap.lengthValue m) }

variable {caller : Caller κ σ} {w w' : World κ σ} {r : Ref} {key : String} {d : Descriptor}
  {e : Abrupt}

/-- A definition changes nothing where it is refused, or defines a length. -/
theorem defineBy_cases (caller : Caller κ σ) (r : Ref) (key : String) (d : Descriptor)
    (w : World κ σ) :
    (∃ f : Heap κ → Bool × Heap κ, (∀ h, (f h).1 = false → (f h).2 = h) ∧
      defineBy caller r key d w = change f w) ∨
    w.heap.kind? (.object r) = some .array ∧ key = "length" ∧ ∃ v, d.value = some v ∧
      defineBy caller r key d w = (lengthOf caller v >>= fun m =>
        change (·.setLength r (w.heap.arrayLength r) m d)) w := by
  have hdefine : ∀ h : Heap κ, (h.define r key d).1 = false → (h.define r key d).2 = h :=
    fun _ => Heap.define_of_refused
  rw [defineBy]
  split
  · rename_i hk
    rw [defineOnArray]
    split
    · rename_i hkey
      cases hv : d.value with
      | none => exact Or.inl ⟨_, hdefine, rfl⟩
      | some v => exact Or.inr ⟨hk, hkey, v, rfl, rfl⟩
    · cases arrayIndex? key with
      | some i => exact Or.inl ⟨_, fun _ => Heap.defineElement_of_refused, rfl⟩
      | none => exact Or.inl ⟨_, hdefine, rfl⟩
  · exact Or.inl ⟨_, hdefine, rfl⟩

/-- An array whose length is read-only is not truncated at all. -/
theorem not_blocked_of_readOnly {n : Nat} (hl : w.heap.arrayLength r = (n, false)) :
    ¬Blocked caller w r key d := by
  rintro ⟨-, -, v, m, n', w', -, -, hl', -⟩
  cases hl.symm.trans hl'

variable (hc : CallsAlong Heap.Extends caller)

include hc

theorem defineOwn_of_refused
    (h : defineOwn caller (.object r) key d false w = .ok false w') :
    w.heap.Extends w'.heap ∨ Blocked caller w r key d ∧ w.heap.ExtendsBut r w'.heap := by
  rw [defineOwn_lenient] at h
  rcases defineBy_cases caller r key d w with ⟨f, hf, he⟩ | ⟨hk, hkey, v, hv, he⟩
  · rw [he] at h
    injection h with hfalse hw
    rw [← hw]
    exact Or.inl (by rw [hf _ hfalse]; exact Heap.extends_growth.refl _)
  · rw [he] at h
    obtain ⟨m, w₁, hm, h⟩ := ok_of_bind h
    have hext := (Heap.extends_growth.lengthOf hc v w).ok hm
    injection h with hfalse hw
    rw [← hw]
    rcases Heap.setLength_of_refused hfalse with hsame | ⟨hlt, hwritable, hblocks⟩
    · exact Or.inl (by rw [hsame]; exact hext)
    · have hl : w.heap.arrayLength r = (_, true) := Prod.ext rfl hwritable
      have hb := (hblocks.of_extends hext hk).of_writable hl hlt
      refine Or.inr ⟨⟨hk, hkey, v, m, _, w₁, hv, hm, hl, hlt, hb⟩, ?_⟩
      exact fun r' o hr ho =>
        ((Heap.keptAt_others r).setLength w₁.heap _ m d r' (Ne.symm hr)).trans (hext r' o ho)

theorem defineOwn_of_error (h : defineOwn caller (.object r) key d false w = .error e w') :
    w.heap.Extends w'.heap := by
  rw [defineOwn_lenient] at h
  rcases defineBy_cases caller r key d w with ⟨f, -, he⟩ | ⟨-, -, v, -, he⟩
  · rw [he] at h
    cases h
  · rw [he] at h
    cases hm : lengthOf caller v w with
    | ok m w₁ =>
      rw [bind_of_ok hm] at h
      cases h
    | error e' w₁ =>
      rw [bind_of_error hm] at h
      cases h
      exact (Heap.extends_growth.lengthOf hc v w).error hm

end Eval

/-! ## Refused operations and errors -/

namespace Eval

variable {m : Eval κ σ α} {f : α → Eval κ σ β} {w : World κ σ}

theorem Agrees.eq_of_ok {m₁ m₂ : Eval κ σ α} (hm : Agrees m₁ m₂) {w w' : World κ σ} {a : α}
    (h : m₁ w = .ok a w') : m₂ w = .ok a w' := by
  rcases hm w with ⟨w₁, he⟩ | he
  · cases h.symm.trans he
  · exact he.symm.trans h

theorem error_of_bind_pure {w' : World κ σ} {e : Abrupt} {g : α → β}
    (h : (m >>= fun a => pure (g a)) w = .error e w') : m w = .error e w' := by
  cases hm : m w with
  | ok a w₁ =>
    rw [bind_of_ok hm] at h
    cases h
  | error e₁ w₁ =>
    rw [bind_of_error hm] at h
    cases h
    rfl

/-- A deletion that throws does so on a value that is no object, or is refused. -/
theorem delete_of_error {v : Value} {key : String} {strict : Bool} {w' : World κ σ} {e : Abrupt}
    (h : delete v key strict w = .error e w') :
    w' = w ∨ delete v key false w = .ok false w' := by
  cases v with
  | object r =>
    rw [delete_object] at h
    split at h
    · rename_i hrefused
      obtain ⟨hgone, -⟩ := (Bool.and_eq_true _ _).mp hrefused
      cases h
      exact Or.inr (by rw [delete_object, if_neg (by simp), (Bool.not_eq_true' _).mp hgone])
    · cases h
  | _ =>
    cases h
    exact Or.inl rfl

theorem ends_bind_of_ok {w' : World κ σ} {a : α} (h : m w = .ok a w') :
    (m >>= f).ends w = (f a).ends w' := by
  rw [ends, bind_of_ok h, ends]

theorem ends_of_bind (h : (m >>= f).ends w = true) : m.ends w = true := by
  rw [ends] at h ⊢
  rcases hm : m w with ⟨a, w'⟩ | ⟨_ | _ | _, w'⟩
  · rfl
  · rfl
  · rfl
  · rw [bind_of_error hm] at h
    cases h

theorem ends_lenient {caller : Caller κ σ} {v : Value} {key : String} {d : Descriptor}
    {strict : Bool} (h : (defineOwn caller v key d strict).ends w = true) :
    (defineOwn caller v key d false).ends w = true := by
  cases strict with
  | false => exact h
  | true =>
    rw [ends, defineOwn_strict] at h
    rw [ends]
    rcases hl : defineOwn caller v key d false w with ⟨a, w'⟩ | ⟨_ | _ | _, w'⟩
    · rfl
    · rfl
    · rfl
    · rw [hl] at h
      cases h

end Eval

namespace Operation

/-- The operation comes to truncate the array at `r`, which a permanent element blocks. -/
def Blocked (caller : Caller κ σ) (w : World κ σ) (op : Operation) (r : Ref) : Prop :=
  ∃ key d w', Defines caller w op r key d w' ∧ Eval.Blocked caller w' r key d

/-- Whether this is an assignment, a deletion or a definition. -/
def isWrite : Operation → Bool
  | put .. | delete .. | define .. | defineProperty .. => true
  | _ => false

variable {caller : Caller κ σ} {w w₁ w' : World κ σ} {op : Operation} {r : Ref} {key : String}
  {d : Descriptor} {e : Abrupt} {behaviour : Intrinsic → κ}

/-- A refused operation ends with a result or throws. -/
theorem Refused.ends (behaviour : Intrinsic → κ) (h : Refused caller w op w') :
    (∃ a, op.run behaviour caller w = .ok a w') ∨
      ∃ e, op.run behaviour caller w = .error (.threw e) w' := by
  cases h with
  | @readOnly r key hcan value strict =>
    rcases Eval.putWith_cases caller r key value w with ⟨-, hput⟩ | ⟨hcan', -⟩
    · cases strict with
      | true => exact Or.inr ⟨_, hput true⟩
      | false => exact Or.inl ⟨_, hput false⟩
    · exact absurd (hcan.symm.trans hcan') (by decide)
  | @delete v key _ h strict =>
    cases strict with
    | false => exact Or.inl ⟨_, h⟩
    | true =>
      rcases Eval.delete_reports caller w v key true with
        ⟨w₁, e, hr, hlenient, hstrict, -⟩ | ⟨hr, -⟩
      · cases hlenient.symm.trans h
        exact Or.inr ⟨e, hstrict⟩
      · exact absurd (.delete h true) (hr w')
  | @define _ r key d w₁ _ hop h =>
    obtain ⟨strict, answer, hrun⟩ := hop.run_eq behaviour
    rw [hrun]
    cases strict with
    | false => exact Or.inl ⟨_, Eval.bind_of_ok h⟩
    | true =>
      have hstrict : Eval.defineOwn caller (.object r) key d true w₁ =
          .error (.threw (.unredefinable key)) w' := by rw [Eval.defineOwn_strict, h]
      exact Or.inr ⟨_, Eval.bind_of_error hstrict⟩

section

variable (hc : Eval.CallsAlong Heap.Extends caller)

include hc

theorem Defines.extends (h : Defines caller w op r key d w₁) : w.heap.Extends w₁.heap := by
  cases h with
  | define | put => exact Heap.extends_growth.refl _
  | @defineProperty _ key attributes _ _ w₀ _ hkey hd =>
    exact Heap.extends_growth.trans ((Heap.extends_growth.toText hc key w).ok hkey)
      ((Heap.extends_growth.readDescriptor hc attributes w₀).ok hd)

theorem Refused.leaves (h : Refused caller w op w') : w.heap.Extends w'.heap ∨
    ∃ r, Blocked caller w op r ∧ w.heap.ExtendsBut r w'.heap := by
  cases h with
  | readOnly => exact Or.inl (Heap.extends_growth.refl _)
  | @delete v key _ h =>
    cases v with
    | object r =>
      rw [Eval.delete_object, if_neg (by simp)] at h
      injection h with hfalse hw
      rw [← hw]
      exact Or.inl (by rw [Heap.delete_of_refused hfalse]; exact Heap.extends_growth.refl _)
    | _ => cases h
  | @define op r key d w₁ _ hop h =>
    have hext := hop.extends hc
    rcases Eval.defineOwn_of_refused hc h with hsame | ⟨hb, hbut⟩
    · exact Or.inl (Heap.extends_growth.trans hext hsame)
    · exact Or.inr ⟨r, ⟨key, d, w₁, hop, hb⟩, fun r' o hr ho => hbut r' o hr (hext r' o ho)⟩

/-- An error of an operation that comes to define a property leaves every object or is a refusal. -/
theorem Defines.extends_or_refused (hop : Defines caller w op r key d w₁)
    (h : op.run behaviour caller w = .error e w') :
    w.heap.Extends w'.heap ∨ Refused caller w op w' := by
  obtain ⟨strict, answer, hrun⟩ := hop.run_eq behaviour
  rw [hrun] at h
  have h := Eval.error_of_bind_pure h
  cases strict with
  | false =>
    exact Or.inl (Heap.extends_growth.trans (hop.extends hc) (Eval.defineOwn_of_error hc h))
  | true =>
    rw [Eval.defineOwn_strict] at h
    rcases hl : Eval.defineOwn caller (.object r) key d false w₁ with ⟨_ | _, w₂⟩ | ⟨e₂, w₂⟩
    · rw [hl] at h
      cases h
      exact Or.inr (.define hop hl)
    · rw [hl] at h
      cases h
    · rw [hl] at h
      cases h
      exact Or.inl (Heap.extends_growth.trans (hop.extends hc) (Eval.defineOwn_of_error hc hl))

theorem defineProperty_extends_or_refused {key attributes : Value}
    (h : run behaviour caller (.defineProperty (.object r) key attributes) w = .error e w') :
    w.heap.Extends w'.heap ∨
      Refused caller w (.defineProperty (.object r) key attributes) w' := by
  have hrun : Eval.defineProperty caller (.object r) key attributes w = .error e w' := h
  have htext := Heap.extends_growth.toText hc key w
  cases hkey : Eval.toText caller key w with
  | error e₁ w₁ =>
    rw [Eval.defineProperty_object, Eval.bind_of_error hkey] at hrun
    cases hrun
    exact Or.inl (htext.error hkey)
  | ok name w₁ =>
    have hread := Heap.extends_growth.readDescriptor hc attributes w₁
    cases hd : Eval.readDescriptor caller attributes w₁ with
    | error e₂ w₂ =>
      rw [Eval.defineProperty_object, Eval.bind_of_ok hkey, Eval.bind_of_error hd] at hrun
      cases hrun
      exact Or.inl (Heap.extends_growth.trans (htext.ok hkey) (hread.error hd))
    | ok d w₂ =>
      exact (Defines.defineProperty hkey hd).extends_or_refused hc h

/-- An error other than a refusal leaves every object. -/
theorem extends_or_refused (hop : op.isWrite = true)
    (h : op.run behaviour caller w = .error e w') :
    w.heap.Extends w'.heap ∨ Refused caller w op w' := by
  cases op with
  | put v key value strict =>
    cases v with
    | object r =>
      have hput : Eval.putWith caller (.object r) key value strict w = .error e w' := h
      rcases Eval.putWith_cases caller r key value w with ⟨hcan, he⟩ |
        ⟨hcan, ⟨d, hd, -⟩ | ⟨-, setter, he⟩⟩
      · rw [he] at hput
        cases strict with
        | false => cases hput
        | true =>
          cases hput
          exact Or.inr (.readOnly hcan value true)
      · exact (Defines.put hcan hd strict).extends_or_refused hc h
      · rw [he] at hput
        have hcall := hc setter (.object r) [value] w
        exact Or.inl (hcall.error (Eval.error_of_bind_pure hput))
    | _ =>
      cases h
      exact Or.inl (Heap.extends_growth.refl _)
  | delete v key strict =>
    rcases Eval.delete_of_error h with rfl | hrefused
    · exact Or.inl (Heap.extends_growth.refl _)
    · exact Or.inr (.delete hrefused strict)
  | define v key d strict =>
    cases v with
    | object r => exact (Defines.define r key d strict).extends_or_refused hc h
    | _ =>
      cases h
      exact Or.inl (Heap.extends_growth.refl _)
  | defineProperty v key attributes =>
    cases v with
    | object r => exact defineProperty_extends_or_refused hc h
    | _ =>
      cases h
      exact Or.inl (Heap.extends_growth.refl _)
  | _ => cases hop

end

/-! ## Quiet runs -/

section

variable {c₁ c₂ : Caller κ σ}
  (hc : ∀ b this args, Eval.Agrees (c₁ b this args) (c₂ b this args))

include hc

theorem Defines.of_agrees (h : Defines c₁ w op r key d w') : Defines c₂ w op r key d w' := by
  cases h with
  | define => exact .define r key d _
  | put hcan hd strict => exact .put hcan hd strict
  | defineProperty hkey hd =>
    exact .defineProperty ((Eval.Agrees.toText hc _).eq_of_ok hkey)
      ((Eval.Agrees.readDescriptor hc _).eq_of_ok hd)

theorem Blocked.of_agrees (h : Blocked c₁ w op r) : Blocked c₂ w op r := by
  obtain ⟨key, d, w', hop, hk, hkey, v, m, n, w₁, hv, hm, hblocks⟩ := h
  exact ⟨key, d, w', hop.of_agrees hc, hk, hkey, v, m, n, w₁, hv,
    (Eval.Agrees.lengthOf hc v).eq_of_ok hm, hblocks⟩

/-- An operation comes to the same definition wherever it is not exhausted before. -/
theorem Defines.of_ends (hends : (op.run behaviour c₁).ends w = true)
    (h : Defines c₂ w op r key d w') : Defines c₁ w op r key d w' := by
  cases h with
  | define => exact .define r key d _
  | put hcan hd strict => exact .put hcan hd strict
  | defineProperty hkey hd =>
    have htext := Eval.ends_of_bind (m := Eval.toText c₁ _) hends
    have hkey₁ := ((Eval.Agrees.toText hc _).eq_of_ends htext).trans hkey
    have hread := Eval.ends_of_bind ((Eval.ends_bind_of_ok hkey₁).symm.trans hends)
    exact .defineProperty hkey₁ (((Eval.Agrees.readDescriptor hc _).eq_of_ends hread).trans hd)

/-- An operation is refused alike wherever it is not exhausted before. -/
theorem Refused.of_ends (hends : (op.run behaviour c₁).ends w = true)
    (h : Refused c₂ w op w') : Refused c₁ w op w' := by
  cases h with
  | readOnly hcan value strict => exact .readOnly hcan value strict
  | delete h strict => exact .delete h strict
  | @define _ r key d w₁ _ hop h =>
    have hop₁ := hop.of_ends hc hends
    obtain ⟨strict, answer, hrun⟩ := hop₁.run_eq behaviour
    rw [Eval.ends, hrun] at hends
    have hlenient := Eval.ends_lenient (Eval.ends_of_bind hends)
    exact .define hop₁ (((Eval.Agrees.defineOwn hc _ key d false).eq_of_ends hlenient).trans h)

end

end Operation

/--
No user code acts, and no provided function that writes is given an object, which happens where
it stands as a setter.
-/
def Rule.quiet : Rule σ
  | _, .provided i _ args, _ => !(i.writes && (argument args 0).isObject)
  | _, _, _ => false

theorem Rule.quiet_keeps : (Rule.quiet : Rule σ).Keeps Heap.Extends where
  perform _ _ _ h := nomatch h
  provided hc i _ args _ _ h := Heap.extends_growth.provided hc fun hw => by
    have h : (!(i.writes && (argument args 0).isObject)) = true := h
    simpa [hw] using h
  function _ h := nomatch h
  build _ h := nomatch h

/--
**A strict write only reports its refusal, and refusals and errors leave every object as it was.**

Whatever way there is to call functions, also one that notes the calls in the state of the host:
the strict run of an assignment, a deletion or a definition ends in the same world as the lenient
run and with the same result, but for a refusal, which the one throws and the other answers.

If no user code acts meanwhile and no provided function writes to an object, then an operation that
is refused or ends in an error leaves all objects, unless it is the truncation of an array that
a permanent element blocks, and that nothing else is in the way of. That changes at most this array.
-/
theorem Operation.refusals_leave_objects :
    (∀ (caller : Caller κ σ) (w : World κ σ) (v : Value) (key : String) (strict : Bool),
      (∀ value, Eval.Reports (Refused caller w (.put v key value strict)) ()
        (Eval.putWith caller v key value) w) ∧
      Eval.Reports (Refused caller w (.delete v key strict)) false (Eval.delete v key) w ∧
      ∀ d, Eval.Reports (Refused caller w (.define v key d strict)) false
        (Eval.defineOwn caller v key d) w) ∧
    ∀ (depth : Nat) (op : Operation) (w : World (Behaviour σ) σ), op.isWrite = true →
      Rule.quiet.ObeyedBy depth (op.run .provided) w →
      ((∃ w', Refused (runBehaviour depth) w op w') ∨
        ∃ e w', op.run .provided (runBehaviour depth) w = .error e w') →
      let w' := Eval.after (op.run .provided (runBehaviour depth)) w
      w.heap.Extends w'.heap ∨
        ∃ r, op.Blocked (runBehaviour depth) w r ∧ w.heap.ExtendsBut r w'.heap := by
  refine ⟨fun caller w v key strict => ⟨fun value => ?_, ?_, fun d => ?_⟩, ?_⟩
  · exact Eval.putWith_reports caller w v key value strict
  · exact Eval.delete_reports caller w v key strict
  · exact Eval.defineOwn_reports caller w v key d strict
  · intro depth op w hop hobeyed hend
    have hsame : op.run .provided (behaviourUnder Rule.quiet depth) w =
      op.run .provided (runBehaviour depth) w := hobeyed
    have hc := Heap.extends_growth.behaviourUnder (Rule.quiet_keeps (σ := σ)) depth
    have hagrees : ∀ b this args, Eval.Agrees (behaviourUnder Rule.quiet depth b this args)
        (runBehaviour depth b this args) := Eval.Agrees.behaviourUnder (σ := σ) depth
    have hrefused : ∀ w', Refused (behaviourUnder Rule.quiet depth) w op w' →
        w.heap.Extends w'.heap ∨
          ∃ r, op.Blocked (runBehaviour depth) w r ∧ w.heap.ExtendsBut r w'.heap := fun w' hr =>
      (hr.leaves hc).imp_right fun ⟨r, hb, hbut⟩ => ⟨r, hb.of_agrees hagrees, hbut⟩
    rcases hend with ⟨w', hr⟩ | ⟨e, w', he⟩
    · -- A refusal is no exhaustion, so the quiet run is refused as well.
      have hends : (op.run .provided (behaviourUnder Rule.quiet depth)).ends w = true := by
        rw [Eval.ends, hsame]
        rcases hr.ends .provided with ⟨a, ha⟩ | ⟨e, he⟩
        · rw [ha]
        · rw [he]
      have hafter : Eval.after (op.run .provided (runBehaviour depth)) w = w' := by
        rcases hr.ends .provided with ⟨a, ha⟩ | ⟨e, he⟩
        · exact Eval.after_of_ok ha
        · exact Eval.after_of_error he
      rw [hafter]
      exact hrefused w' (hr.of_ends hagrees hends)
    · rw [Eval.after_of_error he]
      rcases extends_or_refused hc hop (hsame.trans he) with hext | hr
      · exact Or.inl hext
      · exact hrefused w' hr

/-- User code that counts its calls and returns a text. -/
def countedName : Value → List Value → Program Nat := fun _ _ =>
  .ask fun n => .tell (n + 1) (.done (.string "p"))

/-- A closed object, an object that `countedName` converts, and one that describes a value. -/
def closedWorld : World (Behaviour Nat) Nat :=
  ⟨#[{ kind := .object, extensible := false },
    { kind := .function, call := some (.user countedName) },
    { kind := .object, properties := [("toString", .plain (.object 1))] },
    { kind := .object, properties := [("value", .plain .null)] }], 0⟩

/-- A frozen array of two elements. -/
def frozenWorld : World (Behaviour Nat) Nat :=
  ⟨#[{ kind := .array
       properties :=
        [("0", .fixed .null true), ("1", .fixed .null true), ("length", .length 2 false)]
       extensible := false }], 0⟩

/--
A definition on a closed object whose key is converted by a function that only counts, and the
definition of a lesser length for a frozen array.
-/
theorem Operation.refusals_leave_objects_closed :
    let named : Operation := .defineProperty (.object 0) (.object 2) (.object 3)
    let shorter : Operation :=
      .define (.object 0) "length" { value := some (Heap.lengthValue 1) } false
    (Rule.quiet.ObeyedBy 1 (named.run .provided) closedWorld ∧
      ∃ w', named.run .provided (runBehaviour 1) closedWorld =
          .error (.threw (.unredefinable "p")) w' ∧
        w'.host = 1 ∧ closedWorld.heap.Extends w'.heap) ∧
      Rule.quiet.ObeyedBy 1 (shorter.run .provided) frozenWorld ∧
        (∃ w', Refused (runBehaviour 1) frozenWorld shorter w') ∧
        frozenWorld.heap.Extends
          (Eval.after (shorter.run .provided (runBehaviour 1)) frozenWorld).heap := by
  intro named shorter
  constructor
  · have hobeyed : Rule.quiet.ObeyedBy 1 (named.run .provided) closedWorld :=
      (Eval.Agrees.operation (Eval.Agrees.behaviourUnder 1) .provided named).eq_of_ends
        (by decide +kernel)
    obtain ⟨w', hw', hhost⟩ : ∃ w', named.run .provided (runBehaviour 1) closedWorld =
        .error (.threw (.unredefinable "p")) w' ∧ w'.host = 1 := ⟨_, rfl, rfl⟩
    have hname : Eval.result? (Eval.toText (runBehaviour 1) (.object 2)) closedWorld =
        some "p" := by
      decide +kernel
    refine ⟨hobeyed, w', hw', hhost, ?_⟩
    have hleft := (refusals_leave_objects (κ := Unit) (σ := Nat)).2 1 named closedWorld rfl
      hobeyed (Or.inr ⟨_, w', hw'⟩)
    rw [Eval.after_of_error hw'] at hleft
    rcases hleft with hext | ⟨r, ⟨key, d, w₁, hop, -, hkey, -⟩, -⟩
    · exact hext
    · cases hkey
      have hop : Defines (runBehaviour 1) closedWorld
        (.defineProperty (.object 0) (.object 2) (.object 3)) r "length" d w₁ := hop
      cases hop with
      | defineProperty htext =>
        exact absurd ((Eval.result?_of_ok htext).symm.trans hname) (by decide)
  · have hobeyed : Rule.quiet.ObeyedBy 1 (shorter.run .provided) frozenWorld :=
      (Eval.Agrees.operation (Eval.Agrees.behaviourUnder 1) .provided shorter).eq_of_ends
        (by decide +kernel)
    have hresult : Eval.result? (Eval.defineOwn (runBehaviour 1) (.object 0) "length"
        { value := some (Heap.lengthValue 1) } false) frozenWorld = some false := by
      decide +kernel
    obtain ⟨w', hw'⟩ := Eval.ok_of_result? hresult
    have hrefused : Refused (runBehaviour 1) frozenWorld shorter w' :=
      .define (.define 0 "length" { value := some (Heap.lengthValue 1) } false) hw'
    refine ⟨hobeyed, ⟨w', hrefused⟩, ?_⟩
    have hleft := (refusals_leave_objects (κ := Unit) (σ := Nat)).2 1 shorter frozenWorld
      rfl hobeyed (Or.inl ⟨w', hrefused⟩)
    rcases hleft with hext | ⟨r, ⟨key, d, w₁, hop, hb⟩, -⟩
    · exact hext
    · have hop : Defines (runBehaviour 1) frozenWorld
        (.define (.object 0) "length" { value := some (Heap.lengthValue 1) } false) r key d w₁ := hop
      cases hop with
      | define =>
        have hreadOnly : frozenWorld.heap.arrayLength 0 = (2, false) := by decide +kernel
        exact absurd hb (Eval.not_blocked_of_readOnly hreadOnly)

end Es5
