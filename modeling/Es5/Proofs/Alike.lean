import Es5.Program
import Es5.Proofs.RenamedHeap
import Es5.Proofs.Writes

/-!
# Actions that end alike

Two actions are alike if from related worlds they end in related worlds, both with related results
or both with the same error. On the way each adds objects and changes only objects that are paired,
so what is not paired stays as it is. The operations are alike on related arguments if calls are.

* `Likeness`: which behaviours and which states of the host are related.
* `Heap.Untouched`: objects are added, and only some of the others change.
* `World.Leads`: from related worlds to related worlds, with pairs added for new objects only.
* `Eval.Alike`: actions that lead from related worlds to related worlds with related results.
* `Alike.bind`, `Alike.alloc`, `Alike.change`: actions in a row, new objects, changes.
* `Alike.get`, `Alike.putWith`, …: the functions that make up operations.
-/

namespace Es5

variable {κ κ' σ σ' α α' δ δ' : Type} {β γ : Renaming}

/-- Which behaviours and which states of the host are related; more pairs relate more. -/
structure Likeness (κ κ' σ σ' : Type) where
  call : Renaming → κ → κ' → Prop
  host : Renaming → σ → σ' → Prop
  call_mono {β γ : Renaming} : β ≤ γ → ∀ b b', call β b b' → call γ b b'
  host_mono {β γ : Renaming} : β ≤ γ → ∀ s s', host β s s' → host γ s s'

/-! ## Worlds -/

/-- Objects are added, and those outside of `S` stay as they are. -/
structure Heap.Untouched (S : Ref → Prop) (h h' : Heap κ) : Prop where
  size_le : h.size ≤ h'.size
  kept : ∀ r < h.size, ¬S r → h'[r]? = h[r]?

namespace Heap.Untouched

variable {S T : Ref → Prop} {h h₁ h₂ : Heap κ} {r : Ref}

theorem refl (S : Ref → Prop) (h : Heap κ) : h.Untouched S h := ⟨Nat.le_refl _, fun _ _ _ => rfl⟩

/-- What changes later may include objects that were added first. -/
theorem trans (h₁₂ : h.Untouched S h₁) (h₂₃ : h₁.Untouched T h₂)
    (hT : ∀ r < h.size, T r → S r) : h.Untouched S h₂ where
  size_le := Nat.le_trans h₁₂.size_le h₂₃.size_le
  kept r hr hS := (h₂₃.kept r (Nat.lt_of_lt_of_le hr h₁₂.size_le) fun ht => hS (hT r hr ht)).trans
    (h₁₂.kept r hr hS)

theorem mono (hST : ∀ r, S r → T r) (hS : h.Untouched S h₁) : h.Untouched T h₁ :=
  ⟨hS.size_le, fun r hr hT => hS.kept r hr fun hs => hT (hST r hs)⟩

theorem push (S : Ref → Prop) (h : Heap κ) (o : ObjectRecord κ) : h.Untouched S (h.push o) where
  size_le := by
    rw [Array.size_push]
    omega
  kept r hr _ := by rw [Array.getElem?_push_lt hr, Array.getElem?_eq_getElem hr]

theorem update (h : Heap κ) (r : Ref) (f : ObjectRecord κ → ObjectRecord κ) :
    h.Untouched (· = r) (h.update r f) where
  size_le := Nat.le_of_eq Array.size_modify.symm
  kept _ _ hr := getElem?_update_of_ne (Ne.symm hr) f

theorem keptAt (r : Ref) : KeptAt r (Untouched (κ := κ) (· = r)) where
  refl := refl _
  trans h₁₂ h₂₃ := h₁₂.trans h₂₃ fun _ _ => id
  define h key d := by
    rcases h.define_snd r key d with he | ⟨o, p, -, -, he⟩
    · rw [he]
      exact refl _ h
    · rw [he]
      exact update h r _
  delete h key := by
    rcases h.delete_snd r key with he | ⟨o, p, -, -, -, he⟩
    · rw [he]
      exact refl _ h
    · rw [he]
      exact update h r _

end Heap.Untouched

/-- Related heaps and related states of the host. -/
structure World.Renamed (L : Likeness κ κ' σ σ') (β : Renaming) (w : World κ σ)
    (w' : World κ' σ') : Prop where
  heap : w.heap.Renamed L.call β w'.heap
  host : L.host β w.host w'.host

/--
Two worlds that `β` relates lead to two that `γ` relates. New pairs are of objects that were added,
and of the others only those changed that were paired.
-/
structure World.Leads (L : Likeness κ κ' σ σ') (β : Renaming) (w : World κ σ)
    (w' : World κ' σ') (γ : Renaming) (w₁ : World κ σ) (w₁' : World κ' σ') : Prop where
  le : β ≤ γ
  fresh : ∀ r s, γ r s → β r s ∨ w.heap.size ≤ r ∧ w'.heap.size ≤ s
  left : w.heap.Untouched (fun r => ∃ s, β r s) w₁.heap
  right : w'.heap.Untouched (fun s => ∃ r, β r s) w₁'.heap
  worlds : w₁.Renamed L γ w₁'

namespace World.Leads

variable {L : Likeness κ κ' σ σ'} {w w₁ w₂ : World κ σ} {w' w₁' w₂' : World κ' σ'}
  {δ : Renaming}

theorem refl (hw : w.Renamed L β w') : Leads L β w w' β w w' :=
  ⟨le_rfl, fun _ _ => Or.inl, .refl _ _, .refl _ _, hw⟩

theorem trans (h₁ : Leads L β w w' γ w₁ w₁') (h₂ : Leads L γ w₁ w₁' δ w₂ w₂') :
    Leads L β w w' δ w₂ w₂' where
  le := h₁.le.trans h₂.le
  fresh r s hr := by
    rcases h₂.fresh r s hr with hold | hnew
    · exact h₁.fresh r s hold
    · exact Or.inr ⟨Nat.le_trans h₁.left.size_le hnew.1, Nat.le_trans h₁.right.size_le hnew.2⟩
  left := h₁.left.trans h₂.left fun r hr ⟨s, hs⟩ => by
    rcases h₁.fresh r s hs with hold | hnew
    · exact ⟨s, hold⟩
    · omega
  right := h₁.right.trans h₂.right fun s hs ⟨r, hr⟩ => by
    rcases h₁.fresh r s hr with hold | hnew
    · exact ⟨r, hold⟩
    · omega
  worlds := h₂.worlds

end World.Leads

/-! ## Actions -/

/-- The same result. -/
abbrev Renaming.Same (_ : Renaming) (a a' : α) : Prop := a = a'

/-- Results related as far as there are any. -/
abbrev Renaming.Optional (A : Renaming → α → α' → Prop) (β : Renaming) (a : Option α)
    (a' : Option α') : Prop := Option.Rel (A β) a a'

namespace Eval

variable {L : Likeness κ κ' σ σ'} {A : Renaming → α → α' → Prop} {B : Renaming → δ → δ' → Prop}

/-- Two actions end in worlds to which theirs lead, with related results or the same error. -/
inductive EndAlike (L : Likeness κ κ' σ σ') (β : Renaming) (w : World κ σ) (w' : World κ' σ')
    (A : Renaming → α → α' → Prop) :
    EStateM.Result Abrupt (World κ σ) α → EStateM.Result Abrupt (World κ' σ') α' → Prop where
  | ok {γ : Renaming} {w₁ : World κ σ} {w₁' : World κ' σ'} {a : α} {a' : α'}
    (hw : w.Leads L β w' γ w₁ w₁')
    (ha : A γ a a') : EndAlike L β w w' A (.ok a w₁) (.ok a' w₁')
  | error {γ : Renaming} {w₁ : World κ σ} {w₁' : World κ' σ'}
    (hw : w.Leads L β w' γ w₁ w₁') (e : Abrupt) :
    EndAlike L β w w' A (.error e w₁) (.error e w₁')

/-- From related worlds the actions end alike. -/
def Alike (L : Likeness κ κ' σ σ') (β : Renaming) (A : Renaming → α → α' → Prop)
    (m : Eval κ σ α) (m' : Eval κ' σ' α') : Prop :=
  ∀ γ, β ≤ γ → ∀ (w : World κ σ) (w' : World κ' σ'), w.Renamed L γ w' →
    EndAlike L γ w w' A (m w) (m' w')

/-- Calls of related behaviours on related arguments are alike. -/
def CallsAlike (L : Likeness κ κ' σ σ') (c : Caller κ σ) (c' : Caller κ' σ') : Prop :=
  ∀ (β : Renaming) (b : κ) (b' : κ') (this this' : Value) (args args' : List Value), L.call β b b' →
    Value.Renamed β this this' → List.Forall₂ (Value.Renamed β) args args' →
    Alike L β Value.Renamed (c b this args) (c' b' this' args')

namespace Alike

variable {m : Eval κ σ α} {m' : Eval κ' σ' α'} {f : α → Eval κ σ δ} {f' : α' → Eval κ' σ' δ'}

theorem mono (hle : β ≤ γ) (hm : Alike L β A m m') : Alike L γ A m m' :=
  fun δ hδ w w' hw => hm δ (hle.trans hδ) w w' hw

theorem pure {a : α} {a' : α'} (ha : ∀ γ, β ≤ γ → A γ a a') :
    Alike L β A (Pure.pure a) (Pure.pure a') :=
  fun γ hle _ _ hw => .ok (.refl hw) (ha γ hle)

theorem same (a : α) : Alike L β Renaming.Same (Pure.pure a) (Pure.pure a) :=
  pure fun _ _ => rfl

theorem throw (e : Abrupt) :
    Alike L β A (throw e : Eval κ σ α) (throw e : Eval κ' σ' α') :=
  fun _ _ _ _ hw => .error (.refl hw) e

theorem fail (e : ScriptError) :
    Alike L β A (Eval.fail e : Eval κ σ α) (Eval.fail e : Eval κ' σ' α') := throw (.threw e)

theorem bind (hm : Alike L β A m m')
    (hf : ∀ γ a a', β ≤ γ → A γ a a' → Alike L γ B (f a) (f' a')) :
    Alike L β B (m >>= f) (m' >>= f') := fun γ hle w w' hw => by
  have hends := hm γ hle w w' hw
  generalize he : m w = r, he' : m' w' = r' at hends
  cases hends with
  | @ok γ₁ w₁ w₁' a a' h₁ ha =>
    rw [bind_of_ok he, bind_of_ok he']
    have hends₂ := hf γ₁ a a' (hle.trans h₁.le) ha γ₁ le_rfl w₁ w₁' h₁.worlds
    generalize f a w₁ = r₂, f' a' w₁' = r₂' at hends₂
    cases hends₂ with
    | ok h₂ hb => exact .ok (h₁.trans h₂) hb
    | error h₂ e => exact .error (h₁.trans h₂) e
  | error h₁ e =>
    rw [bind_of_error he, bind_of_error he']
    exact .error h₁ e

/-- The first step gives the same on both sides. -/
theorem bind_same {m : Eval κ σ α} {m' : Eval κ' σ' α} {f : α → Eval κ σ δ}
    {f' : α → Eval κ' σ' δ'}
    (hm : Alike L β Renaming.Same m m')
    (hf : ∀ γ a, β ≤ γ → Alike L γ B (f a) (f' a)) : Alike L β B (m >>= f) (m' >>= f') :=
  bind hm fun γ a a' hle ha => by
    cases ha
    exact hf γ a hle

theorem map {f : α → δ} {f' : α' → δ'} (hm : Alike L β A m m')
    (hf : ∀ γ a a', β ≤ γ → A γ a a' → B γ (f a) (f' a'))
    (hB : ∀ {γ₁ γ₂ : Renaming} {b : δ} {b' : δ'}, γ₁ ≤ γ₂ → B γ₁ b b' → B γ₂ b b') :
    Alike L β B (m >>= fun a => Pure.pure (f a)) (m' >>= fun a => Pure.pure (f' a)) :=
  bind hm fun γ a a' hle ha => pure fun _ hle' => hB hle' (hf γ a a' hle ha)

/-- What is computed from related results may be the same. -/
theorem map_same {f : α → δ} {f' : α' → δ} (hm : Alike L β A m m')
    (hf : ∀ γ a a', β ≤ γ → A γ a a' → f a = f' a') :
    Alike L β Renaming.Same (m >>= fun a => Pure.pure (f a)) (m' >>= fun a => Pure.pure (f' a)) :=
  map hm hf fun _ hb => hb

theorem ite {c c' : Prop} [Decidable c] [Decidable c'] {m₁ m₂ : Eval κ σ α}
    {m₁' m₂' : Eval κ' σ' α'}
    (hc : c ↔ c') (hm₁ : Alike L β A m₁ m₁') (hm₂ : Alike L β A m₂ m₂') :
    Alike L β A (if c then m₁ else m₂) (if c' then m₁' else m₂') := by
  by_cases h : c
  · rw [if_pos h, if_pos (hc.mp h)]
    exact hm₁
  · rw [if_neg h, if_neg fun h' => h (hc.mpr h')]
    exact hm₂

theorem look {f : Heap κ → α} {f' : Heap κ' → α'}
    (hf : ∀ γ h h', β ≤ γ → h.Renamed L.call γ h' → A γ (f h) (f' h')) :
    Alike L β A (Eval.look f) (Eval.look f') :=
  fun γ hle _ _ hw => .ok (.refl hw) (hf γ _ _ hle hw.heap)

/-- A change of paired objects. -/
theorem change {r s : Ref} (hr : β r s) {f : Heap κ → α × Heap κ}
    {f' : Heap κ' → α' × Heap κ'}
    (hf : ∀ γ h h', β ≤ γ → h.Renamed L.call γ h' →
      A γ (f h).1 (f' h').1 ∧ (f h).2.Renamed L.call γ (f' h').2)
    (hleft : ∀ h : Heap κ, h.Untouched (· = r) (f h).2)
    (hright : ∀ h : Heap κ', h.Untouched (· = s) (f' h).2) :
    Alike L β A (Eval.change f) (Eval.change f') := fun γ hle w w' hw => by
  obtain ⟨hresult, hheap⟩ := hf γ w.heap w'.heap hle hw.heap
  refine .ok ⟨le_rfl, fun _ _ => Or.inl, ?_, ?_, hheap, hw.host⟩ hresult
  · refine (hleft w.heap).mono fun r' he => ⟨s, ?_⟩
    rw [he]
    exact hle _ _ hr
  · refine (hright w'.heap).mono fun s' he => ⟨r, ?_⟩
    rw [he]
    exact hle _ _ hr

/-- A change whose result is the same on both sides. -/
theorem change_same {r s : Ref} (hr : β r s) {f : Heap κ → α × Heap κ} {f' : Heap κ' → α × Heap κ'}
    (hf : ∀ γ h h', β ≤ γ → h.Renamed L.call γ h' → Heap.Alike L.call γ (f h) (f' h'))
    (hleft : ∀ h : Heap κ, h.Untouched (· = r) (f h).2)
    (hright : ∀ h : Heap κ', h.Untouched (· = s) (f' h).2) :
    Alike L β Renaming.Same (Eval.change f) (Eval.change f') :=
  change hr (fun γ h h' hle hh => ⟨(hf γ h h' hle hh).result, (hf γ h h' hle hh).heap⟩) hleft hright

/-- A change of the records of paired objects. -/
theorem update {r s : Ref} (hr : β r s) {f : ObjectRecord κ → ObjectRecord κ}
    {f' : ObjectRecord κ' → ObjectRecord κ'}
    (hf : ∀ γ, β ≤ γ → ∀ o o', o.Renamed (L.call γ) γ o' → (f o).Renamed (L.call γ) γ (f' o')) :
    Alike L β Renaming.Same (Eval.change fun h => ((), h.update r f))
      (Eval.change fun h => ((), h.update s f')) :=
  change_same hr (fun γ _ _ hle hh => ⟨rfl, hh.update (hle _ _ hr) (hf γ hle)⟩)
    (fun h => .update h r f) fun h => .update h s f'

/-- New objects are paired. -/
theorem alloc {o : ObjectRecord κ} {o' : ObjectRecord κ'} (ho : o.Renamed (L.call β) β o') :
    Alike L β Value.Renamed (Eval.alloc o) (Eval.alloc o') := fun γ hle w w' hw => by
  have hleft : ∀ t, ¬γ w.heap.size t := fun t ht =>
    Nat.lt_irrefl _ (hw.heap.lt_size ht).1
  have hright : ∀ t, ¬γ t w'.heap.size := fun t ht =>
    Nat.lt_irrefl _ (hw.heap.lt_size ht).2
  have hadd := Renaming.le_add hleft hright
  have hheap : Heap.Renamed L.call (γ.add w.heap.size w'.heap.size hleft hright)
      (w.heap.push o) (w'.heap.push o') := by
    rintro r s (hold | ⟨rfl, rfl⟩)
    · obtain ⟨p, p', hp, hp', hpp⟩ := hw.heap r s hold
      exact ⟨p, p', w.heap.extends_push o r p hp, w'.heap.extends_push o' s p' hp',
        hpp.mono hadd (L.call_mono hadd)⟩
    · exact ⟨o, o', Array.getElem?_push_size, Array.getElem?_push_size,
        ho.mono (hle.trans hadd) (L.call_mono (hle.trans hadd))⟩
  rw [alloc_eq, alloc_eq]
  refine .ok ⟨hadd, ?_, .push _ _ _, .push _ _ _, hheap, L.host_mono hadd _ _ hw.host⟩
    (.object (Or.inr ⟨rfl, rfl⟩))
  rintro r s (hold | ⟨rfl, rfl⟩)
  · exact Or.inl hold
  · exact Or.inr ⟨Nat.le_refl _, Nat.le_refl _⟩

/-! ## Reading and converting -/

variable {v v' u u' : Value}

theorem objectFor (method : String) (hv : Value.Renamed β v v') :
    Alike L β (fun γ r s => γ r s) (Eval.objectFor method v) (Eval.objectFor method v') := by
  cases hv with
  | object hr => exact pure fun _ hle => hle _ _ hr
  | plain v hv =>
    cases v with
    | object => cases hv
    | _ =>
      refine bind_same (look fun γ h h' _ hh => ?_) fun _ _ _ => fail _
      exact hh.typeName (.plain _ rfl)

theorem argumentObject (function : String) (hv : Value.Renamed β v v') :
    Alike L β Renaming.Same (Eval.argumentObject function v) (Eval.argumentObject function v') :=
  ite (by rw [hv.isObject]) (same ()) (fail _)

theorem wrapper (C : κ → κ' → Prop) (v : Value) :
    Option.Rel (ObjectRecord.Renamed C β) (wrapper? v) (wrapper? v) := by
  have hplain : ∀ (kind : ObjectClass) (ps : Properties) (u : Value), u.isObject = false →
      (∀ x ∈ ps, Property.Renamed β x.2 x.2) → ObjectRecord.Renamed C β
        { kind, properties := ps, primitive := some u }
        { kind, properties := ps, primitive := some u } := fun _ _ u hu hps =>
    ⟨rfl, .refl_of_plain hps, .none, rfl, .none, .some (.plain u hu)⟩
  cases v with
  | boolean b => exact .some (hplain _ _ _ rfl fun _ hx => nomatch hx)
  | number x => exact .some (hplain _ _ _ rfl fun _ hx => nomatch hx)
  | string s =>
    refine .some (hplain _ _ _ rfl fun x hx => ?_)
    rcases List.mem_append.mp hx with hpiece | hlength
    · obtain ⟨i, hi, rfl⟩ := List.mem_mapIdx.mp hpiece
      exact .data (.plain _ rfl) _ _ _
    · rw [List.mem_singleton.mp hlength]
      exact .data (.plain _ rfl) _ _ _
  | _ => exact .none

theorem toObject (hv : Value.Renamed β v v') :
    Alike L β Value.Renamed (Eval.toObject v) (Eval.toObject v') := by
  cases hv with
  | object hr => exact pure fun _ hle => .object (hle _ _ hr)
  | plain v hv =>
    rw [Eval.toObject, Eval.toObject, if_neg (by simp [hv]), if_neg (by simp [hv])]
    have hwrapper := wrapper (β := β) (L.call β) v
    generalize (wrapper? v : Option (ObjectRecord κ)) = o,
      (wrapper? v : Option (ObjectRecord κ')) = o' at hwrapper
    cases hwrapper with
    | none => exact fail _
    | some ho => exact alloc ho

theorem tag (hv : Value.Renamed β v v') :
    Alike L β Renaming.Same (Eval.tag v) (Eval.tag v') := by
  have hclass : ∀ {v v' : Value}, Value.Renamed β v v' → Alike L β Renaming.Same
      (do
        let o ← Eval.toObject v
        let name ← Eval.look fun h => ((h.kind? o).map (·.name)).getD "Object"
        return "[object " ++ name ++ "]")
      (do
        let o ← Eval.toObject v'
        let name ← Eval.look fun h => ((h.kind? o).map (·.name)).getD "Object"
        return "[object " ++ name ++ "]") := fun hv => by
    refine bind (toObject hv) fun γ o o' _ ho => ?_
    refine bind_same (look fun γ' h h' hle hh => ?_) fun _ name _ => same _
    rw [hh.kind? (ho.mono hle)]
  cases hv with
  | object hr => exact hclass (.object hr)
  | plain v hv =>
    cases v with
    | undefined | null => exact same _
    | _ => exact hclass (.plain _ hv)

variable {c : Caller κ σ} {c' : Caller κ' σ'} (hc : CallsAlike L c c')

include hc

theorem call {f f' : Value} {args args' : List Value} (hf : Value.Renamed β f f')
    (hv : Value.Renamed β v v') (hargs : List.Forall₂ (Value.Renamed β) args args') :
    Alike L β Value.Renamed (Eval.call c f v args) (Eval.call c' f' v' args') := by
  refine bind (A := Renaming.Optional L.call)
    (look fun γ h h' hle hh => hh.call (hf.mono hle)) fun γ b b' hle hb => ?_
  cases hb with
  | some hb =>
    exact hc γ _ _ _ _ _ _ hb (hv.mono hle) (hargs.imp fun _ _ ha => ha.mono hle)
  | none =>
    refine bind_same (look fun γ' h h' hle' hh => ?_) fun _ _ _ => fail _
    exact hh.typeName ((hf.mono hle).mono hle')

theorem get (hv : Value.Renamed β v v') (key : String) :
    Alike L β Value.Renamed (Eval.get c v key) (Eval.get c' v' key) := by
  refine bind (objectFor _ hv) fun γ _ _ hle _ => ?_
  refine bind (A := Renaming.Optional Property.Renamed)
    (look fun γ' h h' hle' hh => hh.find? ((hv.mono hle).mono hle') key) fun γ' p p' hle' hp => ?_
  cases hp with
  | none => exact pure fun _ _ => .undefined
  | some hp =>
    cases hp with
    | data hu => exact pure fun _ hle'' => hu.mono hle''
    | accessor hg =>
      cases hg with
      | none => exact pure fun _ _ => .undefined
      | some hg => exact call hc hg ((hv.mono hle).mono hle') .nil

theorem invoke (hv : Value.Renamed β v v') (name : String) {args args' : List Value}
    (hargs : List.Forall₂ (Value.Renamed β) args args') :
    Alike L β Value.Renamed (Eval.invoke c v name args) (Eval.invoke c' v' name args') := by
  refine bind (get hc hv name) fun γ f f' hle hf => ?_
  refine bind_same (look fun γ' h h' hle' hh => hh.isCallable (hf.mono hle')) fun γ' _ hle' => ?_
  refine ite Iff.rfl (call hc (hf.mono hle') ((hv.mono hle).mono hle') ?_) (fail _)
  exact hargs.imp fun _ _ ha => (ha.mono hle).mono hle'

theorem firstPrimitive : ∀ (names : List String) {β : Renaming} {v v' : Value},
    Value.Renamed β v v' → Alike L β Value.Renamed (Eval.firstPrimitive c v names)
      (Eval.firstPrimitive c' v' names)
  | [], _, _, _, _ => fail _
  | name :: rest, _, _, _, hv => by
    refine bind (get hc hv name) fun γ f f' hle hf => ?_
    refine bind_same (look fun γ' h h' hle' hh => hh.isCallable (hf.mono hle')) fun γ' _ hle' => ?_
    have hv' := (hv.mono hle).mono hle'
    refine ite Iff.rfl (bind (call hc (hf.mono hle') hv' .nil) fun γ'' p p' hle'' hp => ?_)
      (firstPrimitive rest hv')
    exact ite (by rw [hp.isObject]) (firstPrimitive rest (hv'.mono hle''))
      (pure fun _ hle''' => hp.mono hle''')

theorem toPrimitive (hv : Value.Renamed β v v') (hint : Hint) :
    Alike L β Value.Renamed (Eval.toPrimitive c v hint) (Eval.toPrimitive c' v' hint) :=
  ite (by rw [hv.isObject]) (firstPrimitive hc hint.methods hv) (pure fun _ hle => hv.mono hle)

theorem toNumber (hv : Value.Renamed β v v') :
    Alike L β Renaming.Same (Eval.toNumber c v) (Eval.toNumber c' v') :=
  map_same (toPrimitive hc hv .number) fun _ _ _ _ hp => by cases hp <;> rfl

theorem toInteger (hv : Value.Renamed β v v') :
    Alike L β Renaming.Same (Eval.toInteger c v) (Eval.toInteger c' v') :=
  map_same (toNumber hc hv) fun _ _ _ _ hx => congrArg _ hx

theorem toUint32 (hv : Value.Renamed β v v') :
    Alike L β Renaming.Same (Eval.toUint32 c v) (Eval.toUint32 c' v') :=
  map_same (toNumber hc hv) fun _ _ _ _ hx => congrArg _ hx

theorem toText (hv : Value.Renamed β v v') :
    Alike L β Renaming.Same (Eval.toText c v) (Eval.toText c' v') :=
  map_same (toPrimitive hc hv .string) fun _ _ _ _ hp => by cases hp <;> rfl

theorem lengthOf (hv : Value.Renamed β v v') :
    Alike L β Renaming.Same (Eval.lengthOf c v) (Eval.lengthOf c' v') := by
  refine bind_same (toUint32 hc hv) fun γ n hle => ?_
  exact bind_same (toNumber hc (hv.mono hle)) fun _ x _ => ite Iff.rfl (same n) (fail _)

theorem field? (hv : Value.Renamed β v v') (key : String) :
    Alike L β (Renaming.Optional Value.Renamed) (Eval.field? c v key) (Eval.field? c' v' key) := by
  refine bind_same (look fun γ h h' hle hh => hh.hasProperty (hv.mono hle) key) fun γ _ hle => ?_
  refine ite Iff.rfl (bind (get hc (hv.mono hle) key) fun γ' u u' _ hu => ?_)
    (pure fun _ _ => .none)
  exact pure fun _ hle' => .some (hu.mono hle')

theorem accessorField? (hv : Value.Renamed β v v') (key : String) :
    Alike L β (Renaming.Optional Value.Renamed) (Eval.accessorField? c v key)
      (Eval.accessorField? c' v' key) := by
  refine bind (field? hc hv key) fun γ f f' _ hf => ?_
  cases hf with
  | none => exact pure fun _ _ => .none
  | some hf =>
    refine bind_same (look fun γ' h h' hle' hh => hh.isCallable (hf.mono hle')) fun γ' _ hle' => ?_
    refine ite ?_ (pure fun _ hle'' => .some ((hf.mono hle').mono hle'')) (fail _)
    rw [Bool.or_eq_true, Bool.or_eq_true, decide_eq_true_iff, decide_eq_true_iff,
      hf.eq_iff .undefined]

theorem readDescriptor (hv : Value.Renamed β v v') :
    Alike L β Descriptor.Renamed (Eval.readDescriptor c v) (Eval.readDescriptor c' v') := by
  refine ite (by rw [hv.isObject]) (fail _) ?_
  refine bind (field? hc hv _) fun γ₁ e e' h₁ he => ?_
  have hv₁ := hv.mono h₁
  refine bind (field? hc hv₁ _) fun γ₂ k k' h₂ hk => ?_
  have hv₂ := hv₁.mono h₂
  refine bind (field? hc hv₂ _) fun γ₃ x x' h₃ hx => ?_
  have hv₃ := hv₂.mono h₃
  refine bind (field? hc hv₃ _) fun γ₄ w w' h₄ hw => ?_
  have hv₄ := hv₃.mono h₄
  refine bind (accessorField? hc hv₄ _) fun γ₅ g g' h₅ hg => ?_
  refine bind (accessorField? hc (hv₄.mono h₅) _) fun γ₆ s s' h₆ hs => ?_
  have hflag : ∀ {γ : Renaming} {f f' : Option Value}, Option.Rel (Value.Renamed γ) f f' →
      f.map (·.toBoolean) = f'.map (·.toBoolean) := fun hf =>
    eq_of_rel (rel_map (fun _ _ hu => hu.toBoolean) hf)
  have hd : Descriptor.Renamed γ₆
      { value := x, get := g, set := s, writable := w.map (·.toBoolean),
        enumerable := e.map (·.toBoolean), configurable := k.map (·.toBoolean) }
      { value := x', get := g', set := s', writable := w'.map (·.toBoolean),
        enumerable := e'.map (·.toBoolean), configurable := k'.map (·.toBoolean) } :=
    ⟨rel_mono (fun _ _ => .mono ((h₄.trans h₅).trans h₆)) hx, hflag hw,
      rel_mono (fun _ _ => .mono h₆) hg, hs, hflag he, hflag hk⟩
  exact ite (by rw [hd.isData, hd.isAccessor]) (fail _) (pure fun _ hle => hd.mono hle)

theorem getOwnPropertyDescriptor (hv : Value.Renamed β v v') (hu : Value.Renamed β u u') :
    Alike L β (Renaming.Optional Descriptor.Renamed) (Eval.getOwnPropertyDescriptor c v u)
      (Eval.getOwnPropertyDescriptor c' v' u') := by
  refine bind_same (argumentObject _ hv) fun γ _ h₁ => ?_
  refine bind_same (toText hc (hu.mono h₁)) fun γ' name h₂ => ?_
  refine bind (A := Renaming.Optional Property.Renamed)
    (look fun γ'' h h' h₃ hh => hh.own? ((hv.mono (h₁.trans h₂)).mono h₃) name)
    fun γ'' p p' _ hp => ?_
  exact pure fun _ hle => rel_map (fun _ _ hpp => .ofProperty (hpp.mono hle)) hp

theorem hasOwnProperty (hv : Value.Renamed β v v') (hu : Value.Renamed β u u') :
    Alike L β Renaming.Same (Eval.hasOwnProperty c v u) (Eval.hasOwnProperty c' v' u') := by
  refine bind_same (toText hc hu) fun γ name h₁ => ?_
  refine bind (toObject (hv.mono h₁)) fun γ' o o' _ ho => ?_
  refine bind (A := Renaming.Optional Property.Renamed)
    (look fun γ'' h h' h₃ hh => hh.own? (ho.mono h₃) name) fun γ'' p p' _ hp => ?_
  exact pure fun _ _ => isSome_eq_of_rel hp

/-! ## Searching -/

theorem holdsAt (hv : Value.Renamed β v v') (hu : Value.Renamed β u u') (index : Nat) :
    Alike L β Renaming.Same (Eval.holdsAt c v u index) (Eval.holdsAt c' v' u' index) := by
  refine bind_same (look fun γ h h' hle hh => hh.hasProperty (hv.mono hle) _) fun γ _ hle => ?_
  refine ite Iff.rfl (map_same (get hc (hv.mono hle) _) fun γ' x x' hle' hx => ?_) (same false)
  exact ((hu.mono hle).mono hle').strictEquals hx

theorem searchUp : ∀ (count index : Nat) {β : Renaming} {v v' u u' : Value},
    Value.Renamed β v v' → Value.Renamed β u u' →
    Alike L β Renaming.Same (Eval.searchUp c v u index count) (Eval.searchUp c' v' u' index count)
  | 0, _, _, _, _, _, _, _, _ => same _
  | count + 1, index, _, _, _, _, _, hv, hu =>
    bind_same (holdsAt hc hv hu index) fun _ _ hle => ite Iff.rfl (same _)
      (searchUp count (index + 1) (hv.mono hle) (hu.mono hle))

theorem searchDown : ∀ (count : Nat) {β : Renaming} {v v' u u' : Value},
    Value.Renamed β v v' → Value.Renamed β u u' →
    Alike L β Renaming.Same (Eval.searchDown c v u count) (Eval.searchDown c' v' u' count)
  | 0, _, _, _, _, _, _, _ => same _
  | index + 1, _, _, _, _, _, hv, hu =>
    bind_same (holdsAt hc hv hu index) fun _ _ hle => ite Iff.rfl (same _)
      (searchDown index (hv.mono hle) (hu.mono hle))

theorem searched (hv : Value.Renamed β v v') :
    Alike L β (fun γ x x' => Value.Renamed γ x.1 x'.1 ∧ x.2 = x'.2) (Eval.searched c v)
      (Eval.searched c' v') := by
  refine bind (toObject hv) fun γ o o' _ ho => ?_
  refine bind (get hc ho _) fun γ' l l' h₁ hl => ?_
  refine bind_same (toUint32 hc hl) fun γ'' n h₂ => ?_
  exact pure fun _ hle => ⟨((ho.mono h₁).mono h₂).mono hle, rfl⟩

theorem searchFrom (ho : Value.Renamed β v v') (hu : Value.Renamed β u u') (length : Nat)
    (start : Option Nat) : Alike L β Renaming.Same
      (match start with
        | none => Pure.pure (-1)
        | some start => Eval.searchUp c v u start (length - start))
      (match start with
        | none => Pure.pure (-1)
        | some start => Eval.searchUp c' v' u' start (length - start)) := by
  cases start with
  | none => exact same _
  | some start => exact searchUp hc _ _ ho hu

theorem indexOf {i i' : Option Value} (hv : Value.Renamed β v v') (hu : Value.Renamed β u u')
    (hi : Option.Rel (Value.Renamed β) i i') :
    Alike L β Renaming.Same (Eval.indexOf c v u i) (Eval.indexOf c' v' u' i') := by
  refine bind (searched hc hv) fun γ found found' hle hfound => ?_
  obtain ⟨o, length⟩ := found
  obtain ⟨o', length'⟩ := found'
  obtain ⟨ho, hlength⟩ := hfound
  dsimp only at ho hlength
  subst hlength
  refine ite Iff.rfl (same _) ?_
  cases hi with
  | none =>
    exact bind_same (same _) fun _ _ hle' =>
      searchFrom hc (ho.mono hle') ((hu.mono hle).mono hle') _ _
  | some hi =>
    exact bind_same (toInteger hc (hi.mono hle)) fun _ _ hle' =>
      searchFrom hc (ho.mono hle') ((hu.mono hle).mono hle') _ _

theorem lastIndexOf {i i' : Option Value} (hv : Value.Renamed β v v') (hu : Value.Renamed β u u')
    (hi : Option.Rel (Value.Renamed β) i i') :
    Alike L β Renaming.Same (Eval.lastIndexOf c v u i) (Eval.lastIndexOf c' v' u' i') := by
  refine bind (searched hc hv) fun γ found found' hle hfound => ?_
  obtain ⟨o, length⟩ := found
  obtain ⟨o', length'⟩ := found'
  obtain ⟨ho, hlength⟩ := hfound
  dsimp only at ho hlength
  subst hlength
  refine ite Iff.rfl (same _) ?_
  have hdown : ∀ {γ' : Renaming} (x : Double), γ ≤ γ' → Alike L γ' Renaming.Same
      (Eval.searchDown c o u (backwardCount length x))
      (Eval.searchDown c' o' u' (backwardCount length x)) := fun x hle' =>
    searchDown hc _ (ho.mono hle') ((hu.mono hle).mono hle')
  cases hi with
  | none => exact bind_same (same _) fun _ x hle' => hdown x hle'
  | some hi => exact bind_same (toInteger hc (hi.mono hle)) fun _ x hle' => hdown x hle'

/-! ## Writing -/

omit hc in
theorem preventExtensions (hv : Value.Renamed β v v') :
    Alike L β Renaming.Same (Eval.preventExtensions v) (Eval.preventExtensions v') :=
  bind (objectFor _ hv) fun _ _ _ _ hr => update hr fun _ _ _ _ hoo => hoo.close

omit hc in
theorem delete (hv : Value.Renamed β v v') (key : String) (strict : Bool) :
    Alike L β Renaming.Same (Eval.delete v key strict) (Eval.delete v' key strict) := by
  refine bind (objectFor _ hv) fun γ r s _ hr => ?_
  refine bind_same (change_same hr (fun _ _ _ hle hh => hh.delete (hle _ _ hr) key)
    (fun h => (Heap.Untouched.keptAt r).delete h key)
    fun h => (Heap.Untouched.keptAt s).delete h key) fun _ gone _ => ?_
  exact ite Iff.rfl (fail _) (same gone)

omit hc in
theorem define {r s : Ref} (hr : β r s) (key : String) {d d' : Descriptor}
    (hd : Descriptor.Renamed β d d') :
    Alike L β Renaming.Same (Eval.change (·.define r key d)) (Eval.change (·.define s key d')) :=
  change_same hr (fun _ _ _ hle hh => hh.define (hle _ _ hr) key (hd.mono hle))
    (fun h => (Heap.Untouched.keptAt r).define h key d)
    fun h => (Heap.Untouched.keptAt s).define h key d'

theorem defineOnArray {r s : Ref} (hr : β r s) (key : String) {d d' : Descriptor}
    (hd : Descriptor.Renamed β d d') :
    Alike L β Renaming.Same (Eval.defineOnArray c r key d) (Eval.defineOnArray c' s key d') := by
  unfold Eval.defineOnArray
  refine ite Iff.rfl ?_ ?_
  · have hvalue := hd.value
    have hrest := define (L := L) hr key hd
    generalize d.value = x, d'.value = x' at hvalue
    cases hvalue with
    | none => exact hrest
    | some hx =>
      refine bind_same (look fun _ h h' hle hh => hh.arrayLength (hle _ _ hr)) fun γ former h₁ => ?_
      refine bind_same (lengthOf hc (hx.mono h₁)) fun γ' n h₂ => ?_
      have hr' := h₂ _ _ (h₁ _ _ hr)
      exact change_same hr' (fun _ _ _ hle hh => hh.setLength (hle _ _ hr') former n
          (((hd.mono h₁).mono h₂).mono hle))
        (fun h => (Heap.Untouched.keptAt r).setLength h former n d)
        fun h => (Heap.Untouched.keptAt s).setLength h former n d'
  · cases arrayIndex? key with
    | none => exact define hr key hd
    | some index =>
      exact change_same hr
        (fun _ _ _ hle hh => hh.defineElement (hle _ _ hr) index key (hd.mono hle))
        (fun h => (Heap.Untouched.keptAt r).defineElement h index key d)
        fun h => (Heap.Untouched.keptAt s).defineElement h index key d'

theorem defineOwn (hv : Value.Renamed β v v') (key : String) {d d' : Descriptor}
    (hd : Descriptor.Renamed β d d') (strict : Bool) :
    Alike L β Renaming.Same (Eval.defineOwn c v key d strict)
      (Eval.defineOwn c' v' key d' strict) := by
  refine bind (objectFor _ hv) fun γ r s h₁ hr => ?_
  refine bind_same (look fun _ h h' hle hh => hh.kind? ((hv.mono h₁).mono hle)) fun γ' k h₂ => ?_
  have hd' := (hd.mono h₁).mono h₂
  have hrefused : ∀ {γ : Renaming} (accepted : Bool), Alike L γ Renaming.Same
      (if !accepted && strict then Eval.fail (.unredefinable key) else Pure.pure accepted)
      (if !accepted && strict then Eval.fail (.unredefinable key) else Pure.pure accepted) :=
    fun accepted => ite Iff.rfl (fail _) (same accepted)
  exact ite Iff.rfl
    (bind_same (defineOnArray hc (h₂ _ _ hr) key hd') fun _ accepted _ => hrefused accepted)
    (bind_same (define (h₂ _ _ hr) key hd') fun _ accepted _ => hrefused accepted)

theorem putWith (hv : Value.Renamed β v v') (key : String) (hu : Value.Renamed β u u')
    (strict : Bool) : Alike L β Renaming.Same (Eval.putWith c v key u strict)
      (Eval.putWith c' v' key u' strict) := by
  refine bind (objectFor _ hv) fun γ₁ _ _ h₁ _ => ?_
  have hv₁ := hv.mono h₁
  refine bind_same (look fun _ h h' hle hh => hh.canPut (hv₁.mono hle) key) fun γ₂ can h₂ => ?_
  have hv₂ := hv₁.mono h₂
  refine ite Iff.rfl ?_ (ite Iff.rfl (fail _) (same _))
  refine bind (A := Renaming.Optional Property.Renamed)
    (look fun _ h h' hle hh => hh.own? (hv₂.mono hle) key) fun γ₃ own own' h₃ hown => ?_
  have hv₃ := hv₂.mono h₃
  refine bind (A := Renaming.Optional Property.Renamed)
    (look fun _ h h' hle hh => hh.find? (hv₃.mono hle) key) fun γ₄ found found' h₄ hfound => ?_
  have hv₄ := hv₃.mono h₄
  have hu₄ := ((hu.mono (h₁.trans h₂)).mono h₃).mono h₄
  have hreplace : Descriptor.Renamed γ₄ { value := some u } { value := some u' } :=
    ⟨.some hu₄, rfl, .none, .none, rfl, rfl⟩
  have hadd : Descriptor.Renamed γ₄
      { value := some u, writable := some true, enumerable := some true,
        configurable := some true }
      { value := some u', writable := some true, enumerable := some true,
        configurable := some true } := ⟨.some hu₄, rfl, .none, .none, rfl, rfl⟩
  have hdefine : ∀ {d d' : Descriptor}, Descriptor.Renamed γ₄ d d' →
      Alike L γ₄ Renaming.Same (Eval.defineOwn c v key d strict >>= fun _ => Pure.pure ())
        (Eval.defineOwn c' v' key d' strict >>= fun _ => Pure.pure ()) := fun hd =>
    map_same (defineOwn hc hv₄ key hd strict) fun _ _ _ _ _ => rfl
  -- An own data property counts before a setter that is found.
  cases hown with
  | some hp =>
    cases hp with
    | data => exact hdefine hreplace
    | accessor =>
      cases hfound with
      | none => exact hdefine hadd
      | some hq =>
        cases hq with
        | data => exact hdefine hadd
        | accessor _ hs =>
          cases hs with
          | none => exact hdefine hadd
          | some hs =>
            exact map_same (call hc hs hv₄ (.cons hu₄ .nil)) fun _ _ _ _ _ => rfl
  | none =>
    cases hfound with
    | none => exact hdefine hadd
    | some hq =>
      cases hq with
      | data => exact hdefine hadd
      | accessor _ hs =>
        cases hs with
        | none => exact hdefine hadd
        | some hs => exact map_same (call hc hs hv₄ (.cons hu₄ .nil)) fun _ _ _ _ _ => rfl

end Alike

end Eval

end Es5
