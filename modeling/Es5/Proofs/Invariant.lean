import Es5.Proofs.IndexKey
import Es5.Proofs.Rule
import Es5.Proofs.Writes
import Mathlib.Data.List.Nodup

/-!
# Invariants of heaps

A condition on every object of a heap holds wherever user code gets, if it holds of the objects
that the language makes by itself and stays with an object that changes. It may speak of the other
objects, as long as it lasts while objects are added and none stops to run what it runs.

* `Heap.Later`: every object stays, and runs the same when it is called.
* `Heap.All Q`, `Heap.Keeps Q`: every object meets a condition, and does so in a later heap.
* `Heap.Invariant Q halves`: what a condition has to respect, where getters and setters are given as
  `halves` allows.
* **`Invariant.course`**, **`Invariant.newRealm`**: such a condition is kept.
-/

namespace Es5

variable {κ σ α : Type}

/-! ## Later heaps -/

/-- Every object stays, and runs the same when it is called. -/
def Heap.Later : Heap κ → Heap κ → Prop := Heap.Lift fun o o' => o'.call = o.call

theorem ObjectRecord.call_evolution :
    ObjectRecord.Evolution fun o o' : ObjectRecord κ => o'.call = o.call where
  refl _ := rfl
  trans h₁₂ h₂₃ := h₂₃.trans h₁₂
  close _ := rfl
  insert _ := rfl
  erase _ _ := rfl

namespace Heap.Later

variable {h h' h₁ h₂ h₃ : Heap κ}

/-- Operations without direct edits lead to later heaps. -/
theorem evolution : Heap.Evolution (fun _ => False) (@Heap.Later κ) :=
  ObjectRecord.call_evolution.heap _

theorem refl (h : Heap κ) : h.Later h := evolution.refl h

theorem trans (h₁₂ : h₁.Later h₂) (h₂₃ : h₂.Later h₃) : h₁.Later h₃ := evolution.trans h₁₂ h₂₃

theorem push (h : Heap κ) (o : ObjectRecord κ) : h.Later (h.push o) :=
  evolution.extend (h.extends_push o)

theorem update (h : Heap κ) (r : Ref) {f : ObjectRecord κ → ObjectRecord κ}
    (hf : ∀ o, (f o).call = o.call) : h.Later (h.update r f) :=
  ObjectRecord.call_evolution.lift_update fun o _ => hf o

theorem size_le (hlater : h.Later h') : h.size ≤ h'.size := by
  refine Nat.le_of_not_lt fun hlt => ?_
  obtain ⟨o', ho', -⟩ := hlater h'.size _ (Array.getElem?_eq_getElem hlt)
  exact Nat.lt_irrefl _ (Array.getElem?_eq_some_iff.mp ho').1

theorem stores {b : κ} (hlater : h.Later h') (hb : h.Stores b) : h'.Stores b := by
  obtain ⟨r, o, ho, hcall⟩ := hb
  obtain ⟨o', ho', he⟩ := hlater r o ho
  exact ⟨r, o', ho', he.trans hcall⟩

theorem isCallable {f : Value} (hlater : h.Later h') (hf : h.isCallable f = true) :
    h'.isCallable f = true := by
  cases f with
  | object r =>
    cases ho : h[r]? with
    | none =>
      rw [Heap.isCallable, Heap.record?, ho] at hf
      cases hf
    | some o =>
      obtain ⟨o', ho', he⟩ := hlater r o ho
      rw [Heap.isCallable, Heap.record?, ho, Option.bind_some] at hf
      rw [Heap.isCallable, Heap.record?, ho', Option.bind_some, he]
      exact hf
  | _ => cases hf

end Heap.Later

/-! ## Conditions on every object -/

/-- Every object of the heap meets a condition. -/
def Heap.All (Q : Heap κ → Ref → ObjectRecord κ → Prop) (h : Heap κ) : Prop :=
  ∀ (r : Ref) (o : ObjectRecord κ), h[r]? = some o → Q h r o

/-- A later heap, in which every object meets a condition if every one did before. -/
def Heap.Keeps (Q : Heap κ → Ref → ObjectRecord κ → Prop) (h h' : Heap κ) : Prop :=
  h.Later h' ∧ (h.All Q → h'.All Q)

theorem Heap.all_empty (Q : Heap κ → Ref → ObjectRecord κ → Prop) : Heap.All Q #[] :=
  fun _ _ h => nomatch h

/-! ## Objects that the language makes by itself -/

/-- The object that a behaviour holds. -/
def Behaviour.held? : Behaviour σ → Option Value
  | provided i => i.held?
  | user _ => none

/-- The properties of elements in order, and a length. -/
def Properties.indexed (f : α → Property) (xs : List α) (length : Property) : Properties :=
  xs.mapIdx (fun i x => (indexKey i, f x)) ++ [("length", length)]

namespace Properties

theorem indexKey_ne_length (i : Nat) : indexKey i ≠ "length" := by
  intro he
  have hl : 'l' ∈ (indexKey i).toList := by
    rw [he]
    decide
  rw [toList_indexKey] at hl
  have hdigit := Nat.isDigit_of_mem_toDigits (by omega) (by omega) hl
  exact absurd hdigit (by decide)

theorem keys_indexed (f : α → Property) (xs : List α) (length : Property) :
    (indexed f xs length).keys = (List.range xs.length).map indexKey ++ ["length"] := by
  rw [indexed, keys, List.map_append]
  congr 1
  exact List.ext_getElem (by simp) fun i _ _ => by simp

theorem nodup_indexed (f : α → Property) (xs : List α) (length : Property) :
    (indexed f xs length).keys.Nodup := by
  rw [keys_indexed, List.nodup_append]
  refine ⟨?_, by simp, ?_⟩
  · exact List.nodup_range.map fun _ _ => indexKey_injective
  · intro key hkey last hlast
    obtain ⟨i, -, rfl⟩ := List.mem_map.mp hkey
    rw [List.mem_singleton.mp hlast]
    exact indexKey_ne_length i

theorem data_indexed {f : α → Property} {length : Property} (hf : ∀ x, (f x).isData = true)
    (hlength : length.isData = true) (xs : List α) :
    ∀ x ∈ indexed f xs length, x.2.isData = true := by
  intro x hx
  rcases List.mem_append.mp hx with hx | hx
  · obtain ⟨i, hi, rfl⟩ := List.mem_mapIdx.mp hx
    exact hf _
  · rw [List.mem_singleton.mp hx]
    exact hlength

end Properties

namespace ObjectRecord

variable {held : κ → Option Value} {h : Heap κ} {o : ObjectRecord κ}

theorem plainIn_array (values : List Value) {proto : Option Value}
    (hproto : h.contains proto = true) :
    PlainIn held h
      { kind := .array, properties := arrayProperties values, prototype := proto } where
  data := Properties.data_indexed (fun _ => rfl) rfl values
  nodup := Properties.nodup_indexed _ values _
  prototype := hproto
  held _ hb := nomatch hb

theorem plainIn_of_wrapper {v : Value} (hv : wrapper? v = some o) : o.PlainIn held h := by
  have hnone : ∀ (kind : ObjectClass) (x : Value),
      PlainIn held h { kind := kind, primitive := some x } := fun _ _ =>
    plainIn_of_empty rfl rfl fun _ hb => nomatch hb
  cases v with
  | boolean | number =>
    cases hv
    exact hnone _ _
  | string s =>
    cases hv
    exact
      { data := Properties.data_indexed (fun _ => rfl) rfl (pieces16 s)
        nodup := Properties.nodup_indexed _ (pieces16 s) _
        prototype := rfl
        held := fun _ hb => nomatch hb }
  | _ => cases hv

end ObjectRecord

/-! ## Invariants -/

/--
A condition on the objects of a heap, one lemma for each change of a heap. The getters and setters
that are given to objects are restricted by `halves`.
-/
structure Heap.Invariant (Q : Heap (Behaviour σ) → Ref → ObjectRecord (Behaviour σ) → Prop)
    (halves : Heap (Behaviour σ) → Option Value → Option Value → Prop) : Prop where
  later {h h' : Heap (Behaviour σ)} {r : Ref} {o : ObjectRecord (Behaviour σ)} :
    h.Later h' → Q h r o → Q h' r o
  plain {h : Heap (Behaviour σ)} {o : ObjectRecord (Behaviour σ)} :
    o.PlainIn Behaviour.held? h → Q (h.push o) h.size o
  close {h : Heap (Behaviour σ)} {r : Ref} {o : ObjectRecord (Behaviour σ)} :
    Q h r o → Q h r { o with extensible := false }
  store {h : Heap (Behaviour σ)} {r : Ref} {o : ObjectRecord (Behaviour σ)} {key : String}
    {p : Property} : Q h r o → p.isData = true → Q h r (o.insert key p)
  insert {h : Heap (Behaviour σ)} {r : Ref} {o : ObjectRecord (Behaviour σ)} {key : String}
    {d : Descriptor} {p : Property} : Q h r o → halves h d.get d.set →
    d.applyTo? o.extensible (o.own? key) = some p → Q h r (o.insert key p)
  erase {h : Heap (Behaviour σ)} {r : Ref} {o : ObjectRecord (Behaviour σ)} (key : String) :
    Q h r o → Q h r (o.erase key)
  halves_none (h : Heap (Behaviour σ)) : halves h none none
  halves_later {h h' : Heap (Behaviour σ)} {get set : Option Value} :
    h.Later h' → halves h get set → halves h' get set

namespace Heap.Invariant

open Eval

variable {Q : Heap (Behaviour σ) → Ref → ObjectRecord (Behaviour σ) → Prop}
  {halves : Heap (Behaviour σ) → Option Value → Option Value → Prop}
  (hQ : Heap.Invariant Q halves) {h h' : Heap (Behaviour σ)} {r : Ref}

include hQ

theorem keeps_push {o : ObjectRecord (Behaviour σ)} (ho : h.All Q → Q (h.push o) h.size o) :
    h.Keeps Q (h.push o) := by
  refine ⟨.push h o, fun hall r' o' ho' => ?_⟩
  rw [Array.getElem?_push] at ho'
  split at ho'
  · rename_i hr
    cases ho'
    rw [hr]
    exact ho hall
  · exact hQ.later (.push h o) (hall r' o' ho')

theorem keeps_update {f : ObjectRecord (Behaviour σ) → ObjectRecord (Behaviour σ)}
    (hcall : ∀ o, (f o).call = o.call) (hf : ∀ o, h[r]? = some o → Q h r o → Q h r (f o)) :
    h.Keeps Q (h.update r f) := by
  have hlater := Later.update h r hcall
  refine ⟨hlater, fun hall r' o' ho' => ?_⟩
  rw [getElem?_update] at ho'
  split at ho'
  · rename_i hr
    subst hr
    obtain ⟨o, ho, rfl⟩ := Option.map_eq_some_iff.mp ho'
    exact hQ.later hlater (hf o ho (hall r o ho))
  · exact hQ.later hlater (hall r' o' ho')

theorem passage : Heap.Passage (Heap.Keeps Q) where
  refl h := ⟨.refl h, id⟩
  trans h₁₂ h₂₃ := ⟨h₁₂.1.trans h₂₃.1, h₂₃.2 ∘ h₁₂.2⟩
  wrap hv := hQ.keeps_push fun _ => hQ.plain (ObjectRecord.plainIn_of_wrapper hv)

theorem keeps_define (key : String) {d : Descriptor} (hd : halves h d.get d.set) :
    h.Keeps Q (h.define r key d).2 := by
  rcases define_snd h r key d with he | ⟨o, p, ho, hp, he⟩
  · rw [he]
    exact hQ.passage.refl h
  · rw [he]
    refine hQ.keeps_update (fun _ => rfl) fun o' ho' hq => ?_
    cases ho.symm.trans ho'
    exact hQ.insert hq hd hp

theorem keeps_delete (h : Heap (Behaviour σ)) (r : Ref) (key : String) :
    h.Keeps Q (h.delete r key).2 := by
  rcases delete_snd h r key with he | ⟨o, p, -, -, -, he⟩
  · rw [he]
    exact hQ.passage.refl h
  · rw [he]
    exact hQ.keeps_update (fun _ => rfl) fun _ _ => hQ.erase key

theorem keptFor (d : Descriptor) (r : Ref) :
    KeptFor d r (fun _ => True) (fun _ => True)
      fun h h' => halves h d.get d.set → h.Keeps Q h' where
  refl h _ := hQ.passage.refl h
  trans h₁₂ h₂₃ hd :=
    hQ.passage.trans (h₁₂ hd) (h₂₃ (hQ.halves_later (h₁₂ hd).1 hd))
  define h key _ d' hd' hd := by
    refine hQ.keeps_define key ?_
    rcases hd' with ⟨hget, hset⟩ | ⟨hget, hset⟩
    · rw [hget, hset]
      exact hd
    · rw [hget, hset]
      exact hQ.halves_none h
  delete h key _ _ := hQ.keeps_delete h r key

/-- **An invariant is kept**, where the objects made meet it and the halves given are allowed. -/
theorem course : Heap.Course (fun h o => h.All Q → Q (h.push o) h.size o)
    (fun h _ _ d => halves h d.get d.set) (Heap.Keeps Q) where
  toPassage := hQ.passage
  add := hQ.keeps_push
  close h r := hQ.keeps_update (fun _ => rfl) fun _ _ => hQ.close
  delete := hQ.keeps_delete
  define hc _ _ d _ hd strict :=
    hQ.passage.defineOwn hc (fun _ _ hkeeps => hQ.halves_later hkeeps.1) (hQ.keptFor d) _ _ hd
      strict
  plain {h _ _ d} hget hset _ := by
    rw [hget, hset]
    exact hQ.halves_none h

/-! ### New realms -/

theorem alloc_plain {o : ObjectRecord (Behaviour σ)} {w : World (Behaviour σ) σ}
    (ho : o.PlainIn Behaviour.held? w.heap) : Along (Heap.Keeps Q) (Eval.alloc o) w :=
  hQ.keeps_push fun _ => hQ.plain ho

/-- **An invariant is kept by new realms.** -/
theorem newRealm (w : World (Behaviour σ) σ) :
    Along (Heap.Keeps Q) (Eval.newRealm .provided) w := by
  have hfurnishing : Furnishing Behaviour.held? 0 (Heap.Keeps Q) :=
    { refl := hQ.passage.refl
      trans := hQ.passage.trans
      size_le := fun hkeeps => hkeeps.1.size_le
      add := fun _ ho => hQ.keeps_push fun _ => hQ.plain ho
      store := fun _ _ _ _ _ hp => hQ.keeps_update (fun _ => rfl) fun _ _ hq => hQ.store hq hp }
  exact hfurnishing.newRealm (fun _ _ => id) (Nat.zero_le _)

end Heap.Invariant

end Es5
