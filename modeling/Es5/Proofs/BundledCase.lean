import Es5.Fixture.Bundled
import Es5.Proofs.Agreement
import Es5.Proofs.AlikeProgram

/-!
# Test cases in any world

The test cases of the bundled fixtures name no object of the world that they start in, so what they
do there is what they do in an empty one, where it can be computed. Calls that may be nested deeper
change nothing.

* `Step.Renamed`: steps that give related values to programs that go on alike.
* **`Eval.Agrees.runBehaviour`**: calls agree with calls nested deeper, unless they are exhausted.
* `lateElementCase_renamed`, `notFrozenCase_renamed`: the test cases are alike in any two worlds.
* **`Bundled.testCase_returns`**: from any world they return true and change no object.
-/

namespace Es5

open Eval

variable {σ σ' α α' δ δ' : Type}

/-! ## Steps -/

/-- Steps that give related values to what follows, where objects may have been made. -/
def Step.Renamed (S : HostLikeness σ σ') (β : Renaming) (A : Renaming → α → α' → Prop)
    (m : Step σ α) (m' : Step σ' α') : Prop :=
  ∀ γ, β ≤ γ → ∀ (next : α → Program σ) (next' : α' → Program σ'),
    (∀ δ, γ ≤ δ → ∀ a a', A δ a a' → Program.Renamed S δ (next a) (next' a')) →
    Program.Renamed S γ (m next) (m' next')

namespace Step.Renamed

variable {S : HostLikeness σ σ'} {β : Renaming} {A : Renaming → α → α' → Prop}
  {B : Renaming → δ → δ' → Prop}

theorem pure {a : α} {a' : α'} (ha : ∀ γ, β ≤ γ → A γ a a') :
    Step.Renamed S β A (Pure.pure a) (Pure.pure a') :=
  fun γ hle _ _ hnext => hnext γ le_rfl a a' (ha γ hle)

theorem bind {m : Step σ α} {m' : Step σ' α'} {f : α → Step σ δ} {f' : α' → Step σ' δ'}
    (hm : Step.Renamed S β A m m')
    (hf : ∀ γ, β ≤ γ → ∀ a a', A γ a a' → Step.Renamed S γ B (f a) (f' a')) :
    Step.Renamed S β B (m >>= f) (m' >>= f') := fun γ hle next next' hnext =>
  hm γ hle _ _ fun ε hε a a' ha => hf ε (hle.trans hε) a a' ha ε le_rfl next next'
    fun ζ hζ => hnext ζ (hε.trans hζ)

theorem perform {op op' : Operation} {A : Renaming → op.Answer → op'.Answer → Prop}
    (hop : ∀ γ, β ≤ γ → Operation.Renamed γ op op' A) :
    Step.Renamed S β A (Step.perform op) (Step.perform op') := fun γ hle next next' hnext =>
  .perform (hop γ hle) fun ε hε a a' ha => by
    cases ha with
    | ok ha => exact hnext ε hε _ _ ha
    | error e => exact .fail e

theorem function {proto proto' : Option Value}
    (hproto : ∀ γ, β ≤ γ → Option.Rel (Value.Renamed γ) proto proto')
    {body : Value → List Value → Program σ} {body' : Value → List Value → Program σ'}
    (hbody : Program.BodiesRenamed S β body body') :
    Step.Renamed S β Value.Renamed (Step.function proto body) (Step.function proto' body') :=
  fun γ hle _ _ hnext => .function (hproto γ hle) (fun ε hε => hbody ε (hle.trans hε)) hnext

theorem toProgram {m : Step σ Value} {m' : Step σ' Value}
    (hm : Step.Renamed S β Value.Renamed m m') :
    Program.Renamed S β m.toProgram m'.toProgram :=
  hm β le_rfl _ _ fun _ _ _ _ hv => .done hv

end Step.Renamed

/-! ## Deeper calls -/

namespace Eval.Agrees

theorem run {c₁ c₂ : Caller (Behaviour σ) σ}
    (hc : ∀ b this args, Agrees (c₁ b this args) (c₂ b this args)) (p : Program σ) :
    Agrees (p.run c₁) (p.run c₂) := by
  rw [← p.runUnder_anything c₁]
  exact runUnder hc p

/-- **Calls agree with calls nested one deeper.** -/
theorem runBehaviour_succ : ∀ (depth : Nat) (b : Behaviour σ) (this : Value) (args : List Value),
    Agrees (runBehaviour depth b this args) (runBehaviour (depth + 1) b this args)
  | 0, _, _, _ => fun w => Or.inl ⟨w, rfl⟩
  | depth + 1, b, this, args => by
    have hc := runBehaviour_succ depth
    cases b with
    | provided i => exact provided hc i this args
    | user body => exact run hc (body this args)

theorem trans {κ : Type} {m₁ m₂ m₃ : Eval κ σ α} (h₁₂ : Agrees m₁ m₂) (h₂₃ : Agrees m₂ m₃) :
    Agrees m₁ m₃ := fun w => by
  rcases h₁₂ w with he | he
  · exact Or.inl he
  · rw [he]
    exact h₂₃ w

/-- **Calls agree with calls nested deeper.** -/
theorem runBehaviour {depth depth' : Nat} (hle : depth ≤ depth') (b : Behaviour σ) (this : Value)
    (args : List Value) :
    Agrees (Es5.runBehaviour depth b this args) (Es5.runBehaviour depth' b this args) := by
  induction hle with
  | refl => exact refl _
  | step _ ih => exact ih.trans (runBehaviour_succ _ b this args)

end Eval.Agrees

/-! ## What is computed in an empty world -/

/-- Hosts of which one is in a given state. -/
def HostLikeness.pinned (s : σ) : HostLikeness σ σ' := ⟨fun _ s' _ => s' = s, fun _ _ _ => id⟩

/--
What a program returns in an empty world it returns in every one, if it names no object there. No
object of that world changes.
-/
theorem Program.Renamed.returns {p : Program σ} {p' : Program σ'}
    (hp : ∀ S : HostLikeness σ σ', Program.Renamed S .empty p p') {depth depth' : Nat}
    (hdepth : depth ≤ depth') {s' : σ'} {v : Value} (hv : v.isObject = false)
    (hrun : result? (p'.run (runBehaviour depth)) ⟨#[], s'⟩ = some v)
    (w : World (Behaviour σ) σ) : ∃ w₁, p.run (runBehaviour depth') w = .ok v w₁ ∧
      w.heap.Extends w₁.heap ∧ w₁.host = w.host := by
  have halike := (hp (.pinned w.host)).alike (callsAlike_runBehaviour _ depth)
  have hends := halike .empty le_rfl w ⟨#[], s'⟩ ⟨fun _ _ hr => hr.elim, rfl⟩
  have hdeeper := Agrees.run (Agrees.runBehaviour hdepth) p w
  rw [result?] at hrun
  generalize p'.run (runBehaviour depth) ⟨#[], s'⟩ = r' at hends hrun
  generalize p.run (runBehaviour depth) w = r at hends hdeeper
  cases hends with
  | error => cases hrun
  | ok hleads hvalue =>
    cases hrun
    rcases hdeeper with ⟨_, he⟩ | he
    · cases he
    · cases hvalue with
      | object => cases hv
      | plain =>
        refine ⟨_, he.symm, fun r o ho => ?_, hleads.worlds.host⟩
        obtain ⟨hlt, -⟩ := Array.getElem?_eq_some_iff.mp ho
        exact (hleads.left.kept r hlt fun hr => hr.choose_spec).trans ho

/-! ## The test cases -/

namespace Fixture

variable (S : HostLikeness σ σ') (β : Renaming)

theorem numberValue_renamed (i : Int) : Value.Renamed β (numberValue i) (numberValue i) :=
  .plain _ rfl

theorem lateElementCase_renamed :
    Program.Renamed S β (lateElementCase : Program σ) (lateElementCase : Program σ') := by
  refine Step.Renamed.toProgram ?_
  refine .bind (.perform fun _ _ => .newRealm) fun β₁ _ realm realm' hrealm => ?_
  have hobject : ∀ γ, β₁ ≤ γ → Step.Renamed S γ Value.Renamed
      (Step.perform (.newObject (some realm.objectPrototype)))
      (Step.perform (.newObject (some realm'.objectPrototype))) := fun γ hγ =>
    .perform fun δ hδ => .newObject (.some (hrealm.objectPrototype.mono (hγ.trans hδ)))
  have hproto : ∀ γ, β₁ ≤ γ → ∀ δ, γ ≤ δ → Option.Rel (Value.Renamed δ)
      (some realm.functionPrototype) (some realm'.functionPrototype) := fun γ hγ δ hδ =>
    .some (hrealm.functionPrototype.mono (hγ.trans hδ))
  have hput : ∀ (γ : Renaming) (key : String) {v v' u u' : Value}, Value.Renamed γ v v' →
      Value.Renamed γ u u' → Step.Renamed S γ Renaming.Same (Step.perform (.put v key u false))
        (Step.perform (.put v' key u' false)) := fun γ key _ _ _ _ hv hu =>
    .perform fun δ hδ => .put (hv.mono hδ) key (hu.mono hδ) false
  refine .bind (hobject β₁ le_rfl) fun β₂ h₂ o o' ho => ?_
  refine .bind (hput β₂ "length" ho (numberValue_renamed β₂ 30)) fun β₃ h₃ _ _ _ => ?_
  have h₁₃ := h₂.trans h₃
  refine .bind (.function (hproto β₃ h₁₃) fun _ _ _ _ _ _ _ _ => .done .undefined)
    fun β₄ h₄ target target' htarget => ?_
  have h₁₄ := h₁₃.trans h₄
  have ho₄ := (ho.mono h₃).mono h₄
  refine .bind (hobject β₄ h₁₄) fun β₅ h₅ start start' hstart => ?_
  have h₁₅ := h₁₄.trans h₅
  refine .bind (.function (hproto β₅ h₁₅) fun γ hγ _ _ _ _ _ _ => ?_)
    fun β₆ h₆ convert convert' hconvert => ?_
  · have h₄γ := h₅.trans hγ
    exact Step.Renamed.toProgram (.bind (hput γ "4" (ho₄.mono h₄γ) (htarget.mono h₄γ))
      fun _ _ _ _ _ => .pure fun δ _ => numberValue_renamed δ 3)
  refine .bind (hput β₆ "valueOf" (hstart.mono h₆) hconvert) fun β₇ h₇ _ _ _ => ?_
  have h₁₇ := (h₁₅.trans h₆).trans h₇
  refine .bind (.perform fun γ hγ => .get (hrealm.arrayPrototype.mono (h₁₇.trans hγ)) "indexOf")
    fun β₈ h₈ search search' hsearch => ?_
  have h₄₈ := ((h₅.trans h₆).trans h₇).trans h₈
  have hargs : ∀ γ, β₈ ≤ γ →
      List.Forall₂ (Value.Renamed γ) [target, start] [target', start'] := fun γ hγ =>
    .cons (htarget.mono (h₄₈.trans hγ))
      (.cons (hstart.mono (((h₆.trans h₇).trans h₈).trans hγ)) .nil)
  refine .bind (.perform fun γ hγ => .call (hsearch.mono hγ) (ho₄.mono (h₄₈.trans hγ))
    (hargs γ hγ)) fun β₉ _ found found' hfound => .pure fun γ hγ => ?_
  rw [(hfound.mono hγ).strictEquals (numberValue_renamed γ 4)]
  exact .plain _ rfl

theorem notFrozenCase_renamed :
    Program.Renamed S β (notFrozenCase : Program σ) (notFrozenCase : Program σ') := by
  refine Step.Renamed.toProgram ?_
  refine .bind (.perform fun _ _ => .newRealm) fun β₁ _ realm realm' hrealm => ?_
  have hobject : ∀ γ, β₁ ≤ γ → Step.Renamed S γ Value.Renamed
      (Step.perform (.newObject (some realm.objectPrototype)))
      (Step.perform (.newObject (some realm'.objectPrototype))) := fun γ hγ =>
    .perform fun δ hδ => .newObject (.some (hrealm.objectPrototype.mono (hγ.trans hδ)))
  have hput : ∀ (γ : Renaming) (key : String) {v v' u : Value}, Value.Renamed γ v v' →
      u.isObject = false → Step.Renamed S γ Renaming.Same (Step.perform (.put v key u false))
        (Step.perform (.put v' key u false)) := fun γ key _ _ _ hv hu =>
    .perform fun δ hδ => .put (hv.mono hδ) key (.plain _ hu) false
  have hinvoke : ∀ γ, β₁ ≤ γ → ∀ (name : String) {args args' : List Value},
      List.Forall₂ (Value.Renamed γ) args args' → Step.Renamed S γ Value.Renamed
        (Step.perform (.invoke realm.objectConstructor name args))
        (Step.perform (.invoke realm'.objectConstructor name args')) := fun γ hγ name _ _ hargs =>
    .perform fun δ hδ => .invoke (hrealm.objectConstructor.mono (hγ.trans hδ)) name
      (hargs.imp fun _ _ ha => ha.mono hδ)
  refine .bind (hobject β₁ le_rfl) fun β₂ h₂ o o' ho => ?_
  refine .bind (hobject β₂ h₂) fun β₃ h₃ attributes attributes' hattributes => ?_
  refine .bind (hput β₃ "value" hattributes rfl) fun β₄ h₄ _ _ _ => ?_
  refine .bind (hput β₄ "writable" (hattributes.mono h₄) rfl) fun β₅ h₅ _ _ _ => ?_
  have h₃₅ := h₄.trans h₅
  refine .bind (hput β₅ "configurable" (hattributes.mono h₃₅) rfl) fun β₆ h₆ _ _ _ => ?_
  have h₃₆ := h₃₅.trans h₆
  have h₂₆ := h₃.trans h₃₆
  refine .bind (hinvoke β₆ (h₂.trans h₂₆) "defineProperty" (.cons (ho.mono h₂₆)
    (.cons (.plain _ rfl) (.cons (hattributes.mono h₃₆) .nil)))) fun β₇ h₇ _ _ _ => ?_
  have h₂₇ := h₂₆.trans h₇
  refine .bind (hinvoke β₇ (h₂.trans h₂₇) "preventExtensions" (.cons (ho.mono h₂₇) .nil))
    fun β₈ h₈ _ _ _ => ?_
  have h₂₈ := h₂₇.trans h₈
  refine .bind (hinvoke β₈ (h₂.trans h₂₈) "isFrozen" (.cons (ho.mono h₂₈) .nil))
    fun β₉ _ frozen frozen' hfrozen => .pure fun γ hγ => ?_
  rw [(hfrozen.mono hγ).toBoolean]
  exact .plain _ rfl

theorem lateElementCase_empty : result? ((lateElementCase : Program Unit).run (runBehaviour 2))
    ⟨#[], ()⟩ = some (.boolean true) := by decide +kernel

theorem notFrozenCase_empty : result? ((notFrozenCase : Program Unit).run (runBehaviour 2))
    ⟨#[], ()⟩ = some (.boolean true) := by decide +kernel

/--
**The test cases of the bundled fixtures return true** from any world, where calls may be nested at
least two deep, and no object of that world changes.
-/
theorem Bundled.testCase_returns {b : Bundled σ} (hb : b ∈ bundled) {depth : Nat}
    (hdepth : 2 ≤ depth) (w : World (Behaviour σ) σ) :
    ∃ w', b.testCase.run (runBehaviour depth) w = .ok (.boolean true) w' ∧
      w.heap.Extends w'.heap ∧ w'.host = w.host := by
  simp only [bundled, List.mem_cons, List.not_mem_nil, or_false] at hb
  rcases hb with rfl | rfl
  · exact Program.Renamed.returns (fun S => lateElementCase_renamed S .empty) hdepth rfl
      lateElementCase_empty w
  · exact Program.Renamed.returns (fun S => notFrozenCase_renamed S .empty) hdepth rfl
      notFrozenCase_empty w

end Fixture

end Es5
