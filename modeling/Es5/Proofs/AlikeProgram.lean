import Es5.Proofs.AlikeOperation

/-!
# Programs that end alike

Two programs are related if they perform the same operations on related values, whatever related
answers these give. A program that is related to itself names no object but those that it is given.
Related programs are alike, by induction on the depth of calls and on the programs.

* `HostLikeness`: which states of the host are related.
* `Program.Renamed`, `Behaviour.Renamed`: related programs and behaviours.
* **`Program.Renamed.alike`**: related programs are alike if calls are.
* **`Eval.callsAlike_runBehaviour`**: calls are alike, however deep they are nested.
-/

namespace Es5

open Eval

variable {σ σ' : Type} {β γ : Renaming}

/-- Which states of the host are related; more pairs relate more. -/
structure HostLikeness (σ σ' : Type) where
  Rel : Renaming → σ → σ' → Prop
  mono {β γ : Renaming} : β ≤ γ → ∀ s s', Rel β s s' → Rel γ s s'

/-- States that name no objects. -/
def HostLikeness.same (σ : Type) : HostLikeness σ σ := ⟨fun _ s s' => s = s', fun _ _ _ => id⟩

/-- The same end of a run, with related values. -/
inductive Completion.Renamed (β : Renaming) : Completion → Completion → Prop where
  | returned {v v' : Value} (hv : Value.Renamed β v v') : Renamed β (.returned v) (.returned v')
  | threw (e : ScriptError) : Renamed β (.threw e) (.threw e)
  | crashed (c : Crash) : Renamed β (.crashed c) (.crashed c)

/-- Related results, or the same error. -/
inductive Renaming.Caught {ε α α' : Type} (A : Renaming → α → α' → Prop) (β : Renaming) :
    Except ε α → Except ε α' → Prop where
  | ok {a : α} {a' : α'} (ha : A β a a') : Caught A β (.ok a) (.ok a')
  | error (e : ε) : Caught A β (.error e) (.error e)

/-! ## Programs -/

/--
Programs that take the same course on related values. Continuations and bodies are related under all
renamings that pair more, since objects may have been made when they are run.
-/
inductive Program.Renamed (S : HostLikeness σ σ') :
    Renaming → Program σ → Program σ' → Prop where
  | done {β : Renaming} {v v' : Value} (hv : Value.Renamed β v v') :
    Renamed S β (.done v) (.done v')
  | fail {β : Renaming} (e : ScriptError) : Renamed S β (.fail e) (.fail e)
  | crash {β : Renaming} (c : Crash) : Renamed S β (.crash c) (.crash c)
  | perform {β : Renaming} {op op' : Operation} {A : Renaming → op.Answer → op'.Answer → Prop}
    (hop : Operation.Renamed β op op' A) {next : Except ScriptError op.Answer → Program σ}
    {next' : Except ScriptError op'.Answer → Program σ'}
    (hnext : ∀ γ, β ≤ γ → ∀ a a', Renaming.Caught A γ a a' → Renamed S γ (next a) (next' a')) :
    Renamed S β (.perform op next) (.perform op' next')
  | function {β : Renaming} {proto proto' : Option Value}
    (hproto : Option.Rel (Value.Renamed β) proto proto')
    {body : Value → List Value → Program σ} {body' : Value → List Value → Program σ'}
    (hbody : ∀ γ, β ≤ γ → ∀ this this' args args', Value.Renamed γ this this' →
      List.Forall₂ (Value.Renamed γ) args args' → Renamed S γ (body this args) (body' this' args'))
    {next : Value → Program σ} {next' : Value → Program σ'}
    (hnext : ∀ γ, β ≤ γ → ∀ f f', Value.Renamed γ f f' → Renamed S γ (next f) (next' f')) :
    Renamed S β (.function proto body next) (.function proto' body' next')
  | build {β : Renaming} {shape shape' : ObjectRecord Unit}
    (hshape : ObjectRecord.Renamed (fun _ _ => True) β shape shape')
    {body : Value → List Value → Program σ} {body' : Value → List Value → Program σ'}
    (hbody : ∀ γ, β ≤ γ → ∀ this this' args args', Value.Renamed γ this this' →
      List.Forall₂ (Value.Renamed γ) args args' → Renamed S γ (body this args) (body' this' args'))
    {next : Value → Program σ} {next' : Value → Program σ'}
    (hnext : ∀ γ, β ≤ γ → ∀ v v', Value.Renamed γ v v' → Renamed S γ (next v) (next' v')) :
    Renamed S β (.build shape body next) (.build shape' body' next')
  | attempt {β : Renaming} {body : Program σ} {body' : Program σ'}
    (hbody : Renamed S β body body') {next : Completion → Program σ}
    {next' : Completion → Program σ'}
    (hnext : ∀ γ, β ≤ γ → ∀ c c', Completion.Renamed γ c c' → Renamed S γ (next c) (next' c')) :
    Renamed S β (.attempt body next) (.attempt body' next')
  | ask {β : Renaming} {next : σ → Program σ} {next' : σ' → Program σ'}
    (hnext : ∀ γ, β ≤ γ → ∀ s s', S.Rel γ s s' → Renamed S γ (next s) (next' s')) :
    Renamed S β (.ask next) (.ask next')
  | tell {β : Renaming} {s : σ} {s' : σ'} (hs : S.Rel β s s') {next : Program σ}
    {next' : Program σ'}
    (hnext : Renamed S β next next') : Renamed S β (.tell s next) (.tell s' next')

/-- Bodies that are related on related receivers and arguments, also when objects were made. -/
def Program.BodiesRenamed (S : HostLikeness σ σ') (β : Renaming)
    (body : Value → List Value → Program σ) (body' : Value → List Value → Program σ') : Prop :=
  ∀ γ, β ≤ γ → ∀ this this' args args', Value.Renamed γ this this' →
    List.Forall₂ (Value.Renamed γ) args args' →
    Program.Renamed S γ (body this args) (body' this' args')

/-- The same provided function that holds related objects, or related bodies. -/
inductive Behaviour.Renamed (S : HostLikeness σ σ') (β : Renaming) :
    Behaviour σ → Behaviour σ' → Prop where
  | provided {i i' : Intrinsic} (hi : Intrinsic.Renamed β i i') :
    Renamed S β (.provided i) (.provided i')
  | user {body : Value → List Value → Program σ} {body' : Value → List Value → Program σ'}
    (hbody : Program.BodiesRenamed S β body body') : Renamed S β (.user body) (.user body')

theorem Behaviour.Renamed.mono {S : HostLikeness σ σ'} {b : Behaviour σ} {b' : Behaviour σ'}
    (hle : β ≤ γ) (h : Renamed S β b b') : Renamed S γ b b' := by
  cases h with
  | provided hi => exact .provided (hi.mono hle)
  | user hbody => exact .user fun δ hδ => hbody δ (hle.trans hδ)

/-- The likeness of user code whose hosts are alike. -/
def HostLikeness.code (S : HostLikeness σ σ') :
    Likeness (Behaviour σ) (Behaviour σ') σ σ' where
  call := Behaviour.Renamed S
  host := S.Rel
  call_mono hle _ _ := .mono hle
  host_mono := S.mono

theorem HostLikeness.code_provided (S : HostLikeness σ σ') {i i' : Intrinsic}
    (hi : Intrinsic.Renamed β i i') : S.code.call β (.provided i) (.provided i') := .provided hi

/-! ## Runs -/

namespace Eval.Alike

variable {S : HostLikeness σ σ'}

theorem caught {α α' : Type} {A : Renaming → α → α' → Prop} {m : Run σ α} {m' : Run σ' α'}
    (hm : Alike S.code β A m m') :
    Alike S.code β (Renaming.Caught A) (Run.caught m) (Run.caught m') := fun γ hle w w' hw => by
  have hends := hm γ hle w w' hw
  simp only [Run.caught]
  generalize m w = r, m' w' = r' at hends
  cases hends with
  | ok h ha => exact .ok h (.ok ha)
  | error h e =>
    cases e with
    | threw e => exact .ok h (.error e)
    | crashed | exhausted => exact .error h _

theorem setHost {s : σ} {s' : σ'} (hs : S.Rel β s s') :
    Alike S.code β Renaming.Same (modify fun w => { w with host := s } : Run σ PUnit)
      (modify fun w => { w with host := s' } : Run σ' PUnit) := fun _ hle _ _ hw =>
  .ok ⟨le_rfl, fun _ _ => Or.inl, .refl _ _, .refl _ _, hw.heap, S.mono hle _ _ hs⟩ rfl

theorem completion {m : Run σ Value} {m' : Run σ' Value} (hm : Alike S.code β Value.Renamed m m') :
    Alike S.code β Completion.Renamed (Run.completion m) (Run.completion m') :=
  fun γ hle w w' hw => by
    have hends := hm γ hle w w' hw
    simp only [Run.completion]
    generalize m w = r, m' w' = r' at hends
    cases hends with
    | ok h ha => exact .ok h (.returned ha)
    | error h e =>
      cases e with
      | threw e => exact .ok h (.threw e)
      | crashed c => exact .ok h (.crashed c)
      | exhausted => exact .error h _

end Eval.Alike

/-- **Related programs are alike** if calls are. -/
theorem Program.Renamed.alike {S : HostLikeness σ σ'} {c : Caller (Behaviour σ) σ}
    {c' : Caller (Behaviour σ') σ'} (hc : CallsAlike S.code c c') {p : Program σ} {p' : Program σ'}
    (h : Program.Renamed S β p p') :
    Alike S.code β Value.Renamed (p.run c) (p'.run c') := by
  induction h with
  | done hv => exact .pure fun _ hle => hv.mono hle
  | fail e => exact .throw _
  | crash c => exact .throw _
  | perform hop _ ih =>
    have hrun := Alike.operation hc S.code_provided hop
    exact .bind (.caught hrun) fun γ a a' hle ha => ih γ hle a a' ha
  | function hproto hbody _ _ ih =>
    have hb : S.code.call _ (.user _) (.user _) := Behaviour.Renamed.user hbody
    exact .bind (.newFunction hb hproto) fun γ f f' hle hf => ih γ hle f f' hf
  | build hshape hbody _ _ ih =>
    have hb : S.code.call _ (.user _) (.user _) := Behaviour.Renamed.user hbody
    exact .bind (.alloc { hshape with call := rel_map (fun _ _ _ => hb) hshape.call })
      fun γ v v' hle hv => ih γ hle v v' hv
  | attempt _ _ ihbody ih =>
    exact .bind (.completion ihbody) fun γ e e' hle he => ih γ hle e e' he
  | ask _ ih =>
    intro γ hle w w' hw
    exact ih γ hle w.host w'.host hw.host γ le_rfl w w' hw
  | tell hs _ ih => exact .bind (.setHost hs) fun γ _ _ hle _ => ih.mono hle

/-- **Calls are alike**, however deep they are nested. -/
theorem Eval.callsAlike_runBehaviour (S : HostLikeness σ σ') : ∀ depth : Nat,
    CallsAlike S.code (runBehaviour depth) (runBehaviour depth)
  | 0 => fun _ _ _ _ _ _ _ _ _ _ => .throw _
  | depth + 1 => fun β b b' this this' args args' hb hthis hargs => by
    have hc := callsAlike_runBehaviour S depth
    cases hb with
    | provided hi => exact Alike.provided hc hi hthis hargs
    | user hbody => exact (hbody β le_rfl this this' args args' hthis hargs).alike hc

end Es5
