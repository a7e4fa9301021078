import Es5.Proofs.Invariant
import Es5.Proofs.Strict

/-!
# Keys in order of creation

The heap changes by few kinds of change, and the keys of every object follow them: a key that is
new is appended, one that is removed is erased, and nothing else moves a key. An operation runs
code first and then writes in one go, in which no key is stored again that was removed.

* `Heap.Change`, `Change.apply`: the changes of a heap.
* `Change.replay`: what a change does to the keys of all objects.
* `Heap.Within good`: from one heap to another by `good` changes.
* `Heap.Tidy`, `KeysFollow`: no key is removed and stored again, and so keys that stay keep their
  order, and new ones come last.
* **`Change.keyLists_foldl`**: the keys of all objects after a run are those that are replayed.
* **`Eval.writes_once`**: each operation runs code and then writes in a tidy way.
* `Heap.Performed`, `Performed.eq_foldl`: what operations do one after the other, and the changes
  that they make.
* **`World.ReachesUnder.keys_in_order`**: keys are distinct and in order of creation.
-/

namespace Es5

variable {κ σ α β : Type}

/-! ## Changes -/

/-- The changes of a heap, but for new prototypes. -/
inductive Heap.Change (κ : Type) where
  | add (o : ObjectRecord κ)
  | close (r : Ref)
  | insert (r : Ref) (key : String) (p : Property)
  | erase (r : Ref) (key : String)

namespace Heap.Change

/-- The heap after a change. -/
def apply (h : Heap κ) : Change κ → Heap κ
  | add o => h.push o
  | close r => h.update r fun o => { o with extensible := false }
  | insert r key p => h.update r (·.insert key p)
  | erase r key => h.update r (·.erase key)

/-- What a change does to the keys of all objects: new keys come last, and others do not move. -/
def replay (lists : Array (List String)) : Change κ → Array (List String)
  | add o => lists.push o.properties.keys
  | close _ => lists
  | insert r key _ => lists.modify r fun keys => if key ∈ keys then keys else keys ++ [key]
  | erase r key => lists.modify r (·.erase key)

end Heap.Change

/-- The keys of all objects. -/
def Heap.keyLists (h : Heap κ) : Array (List String) := Array.map (·.properties.keys) h

namespace Heap

variable {h h' h₁ h₂ h₃ : Heap κ} {r : Ref} {key : String} {good : Change κ → Prop}

theorem keyLists_update (h : Heap κ) (r : Ref) {f : ObjectRecord κ → ObjectRecord κ}
    {g : List String → List String} (hf : ∀ o, (f o).properties.keys = g o.properties.keys) :
    (h.update r f).keyLists = h.keyLists.modify r g := by
  refine Array.ext_getElem? fun i => ?_
  rw [keyLists, Array.getElem?_map, getElem?_update, Array.getElem?_modify, keyLists,
    Array.getElem?_map]
  split
  · cases h[i]? with
    | none => rfl
    | some o => exact congrArg some (hf o)
  · rfl

namespace Change

theorem keyLists_apply (h : Heap κ) (c : Change κ) :
    (c.apply h).keyLists = c.replay h.keyLists := by
  cases c with
  | add o => exact Array.map_push
  | close r =>
    have hsame := h.keyLists_update r (f := fun o => { o with extensible := false }) (g := id)
      fun _ => rfl
    rw [apply, hsame, replay]
    refine Array.ext_getElem? fun i => ?_
    rw [Array.getElem?_modify, Option.map_id, id_eq, ite_self]
  | insert r key p => exact h.keyLists_update r fun o => Properties.keys_insert _ _ _
  | erase r key => exact h.keyLists_update r fun o => Properties.keys_erase

theorem size_le_apply (h : Heap κ) (c : Change κ) : h.size ≤ (c.apply h).size := by
  cases c <;> simp [apply, update]

/-- **The keys of all objects after some changes are those that are replayed.** -/
theorem keyLists_foldl (cs : List (Change κ)) (h : Heap κ) :
    (cs.foldl apply h).keyLists = cs.foldl replay h.keyLists := by
  induction cs generalizing h with
  | nil => rfl
  | cons c cs ih => rw [List.foldl_cons, List.foldl_cons, ih, keyLists_apply]

end Change

/-! ## Runs of changes -/

/-- The heap `h'` comes from `h` by `good` changes. -/
def Within (good : Change κ → Prop) (h h' : Heap κ) : Prop :=
  ∃ cs : List (Change κ), (∀ c ∈ cs, good c) ∧ h' = cs.foldl Change.apply h

namespace Within

theorem refl (h : Heap κ) : h.Within good h := ⟨[], (fun _ hc => nomatch hc), rfl⟩

theorem trans (h₁₂ : h₁.Within good h₂) (h₂₃ : h₂.Within good h₃) : h₁.Within good h₃ := by
  obtain ⟨cs, hcs, rfl⟩ := h₁₂
  obtain ⟨cs', hcs', rfl⟩ := h₂₃
  refine ⟨cs ++ cs', fun c hc => ?_, by rw [List.foldl_append]⟩
  exact (List.mem_append.mp hc).elim (hcs c) (hcs' c)

theorem single {c : Change κ} (hc : good c) : h.Within good (c.apply h) :=
  ⟨[c], fun _ hmem => List.mem_singleton.mp hmem ▸ hc, rfl⟩

theorem define (hgood : ∀ p, good (.insert r key p)) (d : Descriptor) :
    h.Within good (h.define r key d).2 := by
  rcases define_snd h r key d with he | ⟨o, p, -, -, he⟩
  · rw [he]
    exact refl h
  · rw [he]
    exact single (hgood p)

theorem delete (hgood : good (.erase r key)) : h.Within good (h.delete r key).2 := by
  rcases delete_snd h r key with he | ⟨o, p, -, -, -, he⟩
  · rw [he]
    exact refl h
  · rw [he]
    exact single hgood

theorem keptFor (d : Descriptor) (r : Ref) {stored removed : String → Prop}
    (hstored : ∀ key p, stored key → good (.insert r key p))
    (hremoved : ∀ key, removed key → good (.erase r key)) :
    KeptFor d r stored removed (Within good) where
  refl := refl
  trans := trans
  define _ _ hkey d' _ := define (fun p => hstored _ p hkey) d'
  delete _ _ hkey := delete (hremoved _ hkey)

theorem passage (hadd : ∀ o, good (.add o)) : Heap.Passage (Within good) where
  refl := refl
  trans := trans
  wrap _ := single (hadd _)

theorem size_le (hw : h.Within good h') : h.size ≤ h'.size := by
  obtain ⟨cs, -, rfl⟩ := hw
  induction cs generalizing h with
  | nil => exact Nat.le_refl _
  | cons c cs ih => exact Nat.le_trans (Change.size_le_apply h c) ih

/-- A new realm adds objects and stores properties on them. -/
theorem newRealm {behaviour : Intrinsic → κ} (hadd : ∀ o, good (.add o))
    (hinsert : ∀ r key p, good (.insert r key p)) (w : World κ σ) :
    Eval.Along (Within good) (Eval.newRealm behaviour) w := by
  have hfurnishing : Furnishing (fun _ => none) 0 (Within good) :=
    { refl := refl
      trans := trans
      size_le := size_le
      add := fun _ _ => single (hadd _)
      store := fun _ _ _ _ _ _ => single (hinsert _ _ _) }
  exact hfurnishing.newRealm (fun _ _ _ => rfl) (Nat.zero_le _)

end Within

/-! ## Tidy runs -/

/-- A change that stores no key of `removed` and removes no other. -/
def Change.Respects (removed : Ref → String → Prop) : Change κ → Prop
  | insert r key _ => ¬removed r key
  | erase r key => removed r key
  | _ => True

/-- The heap `h'` comes from `h` by changes that remove no key. -/
def Grows : Heap κ → Heap κ → Prop := Within (Change.Respects fun _ _ => False)

/-- The heap `h'` comes from `h` by changes that never store a key again that they removed. -/
def Tidy (h h' : Heap κ) : Prop :=
  ∃ removed : Ref → String → Prop, h.Within (Change.Respects removed) h'

end Heap

/-- The keys that stay keep their order, and the new ones come last. -/
def KeysFollow (before after : List String) : Prop :=
  ∃ kept new : List String, kept.Sublist before ∧ after = kept ++ new ∧ ∀ key ∈ new, key ∉ before

namespace Heap

variable {h h' : Heap κ} {r : Ref} {removed : Ref → String → Prop}

theorem ownKeys_eq (h : Heap κ) (r : Ref) : h.ownKeys (.object r) = h.keyLists[r]?.getD [] := by
  rw [ownKeys, record?, keyLists, Array.getElem?_map]

/-- How keys follow changes that respect `removed`, as an invariant of runs of changes. -/
def FollowBut (removed : String → Prop) (before after : List String) : Prop :=
  ∃ kept new : List String, kept.Sublist before ∧ after = kept ++ new ∧
    (∀ key ∈ new, key ∉ before ∧ ¬removed key) ∧ ∀ key ∈ before, key ∉ kept → removed key

namespace FollowBut

variable {removed : String → Prop} {before after : List String} {key : String}

theorem refl (removed : String → Prop) (keys : List String) : FollowBut removed keys keys :=
  ⟨keys, [], .refl _, by simp, by simp, fun _ hmem hnot => absurd hmem hnot⟩

theorem append (hf : FollowBut removed before after) (hkey : ¬removed key) (hnew : key ∉ after) :
    FollowBut removed before (after ++ [key]) := by
  obtain ⟨kept, new, hkept, rfl, hfresh, hgone⟩ := hf
  refine ⟨kept, new ++ [key], hkept, by rw [List.append_assoc], fun k hk => ?_, hgone⟩
  rcases List.mem_append.mp hk with hk | hk
  · exact hfresh k hk
  · rw [List.mem_singleton.mp hk]
    have hnot : key ∉ kept := fun hmem => hnew (List.mem_append_left _ hmem)
    exact ⟨fun hbefore => hkey (hgone key hbefore hnot), hkey⟩

theorem erase (hf : FollowBut removed before after) (hkey : removed key) :
    FollowBut removed before (after.erase key) := by
  obtain ⟨kept, new, hkept, rfl, hfresh, hgone⟩ := hf
  have hnew : key ∉ new := fun hmem => (hfresh key hmem).2 hkey
  refine ⟨kept.erase key, new, List.erase_sublist.trans hkept, ?_, hfresh, fun k hk hnot => ?_⟩
  · by_cases hmem : key ∈ kept
    · rw [List.erase_append_left _ hmem]
    · rw [List.erase_append_right _ hmem, List.erase_of_not_mem hnew, List.erase_of_not_mem hmem]
  · by_cases hk' : k = key
    · rw [hk']
      exact hkey
    · exact hgone k hk fun hmem => hnot ((List.mem_erase_of_ne hk').mpr hmem)

theorem replay {lists : Array (List String)} {r : Ref} {removed : Ref → String → Prop}
    (hr : r < lists.size) (hf : FollowBut (removed r) before (lists[r]?.getD [])) {c : Change κ}
    (hc : c.Respects removed) : FollowBut (removed r) before ((c.replay lists)[r]?.getD []) := by
  cases c with
  | add o =>
    rw [Change.replay, Array.getElem?_push_lt hr, ← Array.getElem?_eq_getElem hr]
    exact hf
  | close => exact hf
  | insert r' key p =>
    rw [Change.replay, Array.getElem?_modify]
    split
    · rename_i he
      subst he
      rw [Array.getElem?_eq_getElem hr] at hf ⊢
      show FollowBut _ _ (if key ∈ lists[r'] then lists[r'] else lists[r'] ++ [key])
      split
      · exact hf
      · exact hf.append hc ‹_›
    · exact hf
  | erase r' key =>
    rw [Change.replay, Array.getElem?_modify]
    split
    · rename_i he
      subst he
      rw [Array.getElem?_eq_getElem hr] at hf ⊢
      exact hf.erase hc
    · exact hf

end FollowBut

theorem size_le_replay (lists : Array (List String)) (c : Change κ) :
    lists.size ≤ (c.replay lists).size := by
  cases c <;> simp [Change.replay]

/-- **Where no key is removed and stored again, new keys come after those that stay.** -/
theorem Tidy.follow (ht : h.Tidy h') (hr : r < h.size) :
    KeysFollow (h.ownKeys (.object r)) (h'.ownKeys (.object r)) := by
  obtain ⟨removed, cs, hcs, rfl⟩ := ht
  have hinvariant : ∀ (cs : List (Change κ)) (lists : Array (List String)), r < lists.size →
      (∀ c ∈ cs, c.Respects removed) →
      FollowBut (removed r) (h.ownKeys (.object r)) (lists[r]?.getD []) →
        FollowBut (removed r) (h.ownKeys (.object r))
          ((cs.foldl Change.replay lists)[r]?.getD []) := by
    intro cs
    induction cs with
    | nil => exact fun _ _ _ hf => hf
    | cons c cs ih =>
      intro lists hr hcs hf
      refine ih _ (Nat.lt_of_lt_of_le hr (size_le_replay lists c)) ?_ ?_
      · exact fun c' hc' => hcs c' (List.mem_cons_of_mem c hc')
      · exact hf.replay hr (hcs c List.mem_cons_self)
  have hsize : r < h.keyLists.size := by simpa [keyLists] using hr
  have hstart := FollowBut.refl (removed r) (h.ownKeys (.object r))
  rw [ownKeys_eq h] at hstart
  obtain ⟨kept, new, hkept, hafter, hfresh, -⟩ := hinvariant cs h.keyLists hsize hcs (by
    rw [ownKeys_eq h]
    exact hstart)
  refine ⟨kept, new, hkept, ?_, fun key hkey => (hfresh key hkey).1⟩
  rw [ownKeys_eq, Change.keyLists_foldl, hafter]

namespace Grows

theorem passage : Heap.Passage (@Grows κ) := Within.passage fun _ => trivial

theorem add (o : ObjectRecord κ) : h.Grows (h.push o) := Within.single (c := .add o) trivial

theorem close (h : Heap κ) (r : Ref) :
    h.Grows (h.update r fun o => { o with extensible := false }) :=
  Within.single (c := .close r) trivial

theorem keptFor (d : Descriptor) (r : Ref) :
    KeptFor d r (fun _ => True) (fun _ => False) (@Grows κ) :=
  Within.keptFor d r (fun _ _ _ => id) fun _ => id

end Grows

namespace Tidy

theorem refl (h : Heap κ) : h.Tidy h := ⟨fun _ _ => False, .refl h⟩

theorem of_grows (hgrows : h.Grows h') : h.Tidy h' := ⟨_, hgrows⟩

theorem define (r : Ref) (key : String) (d : Descriptor) : h.Tidy (h.define r key d).2 :=
  of_grows ((Grows.keptFor d r).define_like h trivial d.value d.writable)

theorem delete (r : Ref) (key : String) : h.Tidy (h.delete r key).2 :=
  ⟨fun _ _ => True, .delete trivial⟩

theorem defineElement (r : Ref) (i : Nat) (key : String) (d : Descriptor) :
    h.Tidy (h.defineElement r i key d).2 :=
  of_grows ((Grows.keptFor d r).defineElement h i trivial trivial)

/-- Only the length is stored where an array is resized, and only elements are removed. -/
theorem setLength (r : Ref) (former : Nat × Bool) (length : Nat) (d : Descriptor) :
    h.Tidy (h.setLength r former length d).2 := by
  have hkept : KeptFor d r (· = "length") (· ≠ "length")
      (Within (κ := κ) (Change.Respects fun _ key => key ≠ "length")) :=
    Within.keptFor d r (fun _ _ hkey hne => hne hkey) fun _ => id
  exact ⟨_, hkept.setLength Properties.indexKey_ne_length rfl h former length⟩

end Tidy

end Heap

/-! ## Operations -/

namespace Eval

theorem heap_after_delete (r : Ref) (key : String) (strict : Bool) (w : World κ σ) :
    (after (delete (.object r) key strict) w).heap = (w.heap.delete r key).2 := by
  rw [after, delete_object]
  by_cases hrefused : (!(w.heap.delete r key).1 && strict) = true
  · rw [if_pos hrefused]
  · rw [if_neg hrefused]

/-- The action runs code along `T`, and then writes without storing again what it removes. -/
def WritesOnce (T : Heap κ → Heap κ → Prop) (m : Eval κ σ α) (w : World κ σ) : Prop :=
  ∃ h, T w.heap h ∧ h.Tidy (after m w).heap

namespace WritesOnce

variable {T : Heap κ → Heap κ → Prop} (hT : Heap.Passage T) {m m' : Eval κ σ α}
  {f : α → Eval κ σ β} {w : World κ σ}

theorem of_along (hm : Along T m w) : WritesOnce T m w := ⟨_, hm, .refl _⟩

theorem congr (hm : WritesOnce T m w) (h : after m' w = after m w) : WritesOnce T m' w := by
  obtain ⟨h₁, ht, htidy⟩ := hm
  exact ⟨h₁, ht, h ▸ htidy⟩

theorem bind_still (hm : WritesOnce T m w) (hf : ∀ a w', (after (f a) w').heap = w'.heap) :
    WritesOnce T (m >>= f) w := by
  obtain ⟨h₁, ht, htidy⟩ := hm
  refine ⟨h₁, ht, ?_⟩
  cases hm : m w with
  | ok a w' =>
    rw [after_bind_of_ok hm, hf]
    rwa [after_of_ok hm] at htidy
  | error e w' =>
    rw [after_bind_of_error hm]
    rwa [after_of_error hm] at htidy

include hT

theorem of_tidy (h : w.heap.Tidy (after m w).heap) : WritesOnce T m w := ⟨_, hT.refl _, h⟩

theorem after_along (hm : Along T m w) (hf : ∀ a w', m w = .ok a w' → WritesOnce T (f a) w') :
    WritesOnce T (m >>= f) w := by
  cases h : m w with
  | ok a w' =>
    obtain ⟨h₁, ht, htidy⟩ := hf a w' h
    exact ⟨h₁, hT.trans (hm.ok h) ht, (after_bind_of_ok h).symm ▸ htidy⟩
  | error e w' => exact ⟨w'.heap, hm.error h, (after_bind_of_error h).symm ▸ .refl _⟩

variable {caller : Caller κ σ} (hc : CallsAlong T caller)

include hc

theorem defineOwn (v : Value) (key : String) (d : Descriptor) (strict : Bool) (w : World κ σ) :
    WritesOnce T (defineOwn caller v key d strict) w := by
  cases v with
  | object r =>
    refine congr ?_ (after_defineOwn caller r key d strict w)
    split
    · rw [defineOnArray]
      split
      · rename_i hkey
        subst hkey
        cases d.value with
        | none => exact of_tidy hT (.define r "length" d)
        | some x =>
          refine after_along hT (hT.look _ w) fun former w₁ _ => ?_
          refine after_along hT (hT.lengthOf hc x w₁) fun length w₂ _ => ?_
          exact of_tidy hT (.setLength r former length d)
      · split
        · exact of_tidy hT (.defineElement r _ key d)
        · exact of_tidy hT (.define r key d)
    · exact of_tidy hT (.define r key d)
  | _ => exact of_along (hT.objectFor_bind rfl w)

theorem putWith (v : Value) (key : String) (value : Value) (strict : Bool) (w : World κ σ) :
    WritesOnce T (putWith caller v key value strict) w := by
  cases v with
  | object r =>
    have hafter : ∀ {m : Eval κ σ Unit}, Eval.putWith caller (.object r) key value strict w = m w →
        after (Eval.putWith caller (.object r) key value strict) w = after m w := fun h => by
      rw [after, h, after]
    rcases putWith_cases caller r key value w with ⟨-, hput⟩ |
      ⟨-, ⟨d, -, hput⟩ | ⟨-, setter, hput⟩⟩
    · refine of_tidy hT ?_
      rw [after, hput strict]
      cases strict <;> exact .refl _
    · exact (bind_still (defineOwn hT hc _ key d strict w) fun _ _ => rfl).congr
        (hafter (hput strict))
    · exact of_along ((hT.bind (hc setter _ [value] w) fun _ w => hT.pure _ w).congr (hput strict))
  | _ => exact of_along (hT.objectFor_bind rfl w)

theorem defineProperty (v key attributes : Value) (w : World κ σ) :
    WritesOnce T (Eval.defineProperty caller v key attributes) w := by
  refine after_along hT (hT.argumentObject _ v w) fun _ w₁ _ => ?_
  refine after_along hT (hT.toText hc key w₁) fun name w₂ _ => ?_
  refine after_along hT (hT.readDescriptor hc attributes w₂) fun d w₃ _ => ?_
  exact bind_still (defineOwn hT hc v name d true w₃) fun _ _ => rfl

omit hc

theorem delete (v : Value) (key : String) (strict : Bool) (w : World κ σ) :
    WritesOnce T (Eval.delete v key strict) w := by
  cases v with
  | object r =>
    refine of_tidy hT ?_
    rw [heap_after_delete]
    exact .delete r key
  | _ => exact of_along (hT.objectFor_bind rfl w)

end WritesOnce

/-- Definitions without a value run no code and remove nothing. -/
theorem defineOwn_grows {caller : Caller κ σ} {d : Descriptor} (hd : d.value = none) (v : Value)
    (key : String) (w : World κ σ) : Along Heap.Grows (defineOwn caller v key d true) w := by
  have hR := @Heap.Grows.passage κ
  cases v with
  | object r =>
    have hkept := @Heap.Grows.keptFor κ d r
    have hdefine : w.heap.Grows (w.heap.define r key d).2 :=
      hkept.define_like w.heap trivial d.value d.writable
    unfold Along
    rw [after_defineOwn]
    split
    · rw [defineOnArray, hd]
      split
      · rename_i hkey
        exact hkey ▸ hdefine
      · split
        · exact hkept.defineElement w.heap _ trivial trivial
        · exact hdefine
    · exact hdefine
  | _ => exact hR.objectFor_bind rfl w

/-- **Each operation runs code, and then writes without storing again what it removes.** -/
theorem writes_once {T : Heap κ → Heap κ → Prop} (hT : Heap.Passage T) {caller : Caller κ σ}
    (hc : CallsAlong T caller) (behaviour : Intrinsic → κ) {op : Operation}
    (hop : op.isEdit = false) (w : World κ σ) : WritesOnce T (op.run behaviour caller) w := by
  have hR := @Heap.Grows.passage κ
  have hgrows : ∀ {α : Type} {m : Eval κ σ α}, Along Heap.Grows m w → WritesOnce T m w :=
    fun hm => .of_tidy hT (.of_grows hm)
  have hclose := @Heap.Grows.close κ
  have hdefine : ∀ d : Descriptor, d.get = none → d.set = none → d.value = none →
      ∀ (v : Value) (key : String) (w : World κ σ),
        Along Heap.Grows (defineOwn caller v key d true) w := fun d _ _ hd => defineOwn_grows hd
  cases op with
  | put v key value strict => exact .putWith hT hc v key value strict w
  | delete v key strict => exact .delete hT v key strict w
  | define v key d strict => exact .defineOwn hT hc v key d strict w
  | defineProperty v key attributes => exact .defineProperty hT hc v key attributes w
  | preventExtensions v => exact hgrows (hR.preventExtensions hclose v w)
  | preventExtensionsOf v => exact hgrows (hR.preventExtensionsOf hclose v w)
  | makeSealed v => exact hgrows (hR.makeSealed hdefine hclose v w)
  | makeFrozen v => exact hgrows (hR.makeFrozen hdefine hclose v w)
  | newRealm => exact hgrows (Heap.Within.newRealm (fun _ => trivial) (fun _ _ _ => id) w)
  | newObject | newArray => exact hgrows (.add _)
  | store | unstore | setPrototype => cases hop
  | _ => exact .of_along (hT.reads hc rfl w)

end Eval

/-! ## Runs of operations -/

namespace Heap

open Eval

/--
What operations do to a heap, with the changes that they make in order. An operation first runs
code, which is made of operations itself, and then writes in changes that store no key that they
remove. Objects may be added at any time.
-/
inductive Performed (behaviour : Intrinsic → κ) : Heap κ → List (Change κ) → Heap κ → Prop
  | nothing (h : Heap κ) : Performed behaviour h [] h
  | inOrder {h₁ h₂ h₃ : Heap κ} {cs cs' : List (Change κ)} (h₁₂ : Performed behaviour h₁ cs h₂)
    (h₂₃ : Performed behaviour h₂ cs' h₃) : Performed behaviour h₁ (cs ++ cs') h₃
  | add (h : Heap κ) (o : ObjectRecord κ) : Performed behaviour h [.add o] (h.push o)
  | operation {σ : Type} {op : Operation} {caller : Caller κ σ} {w : World κ σ} {h : Heap κ}
    {code writes : List (Change κ)} {removed : Ref → String → Prop} (hop : op.isEdit = false)
    (hcode : Performed behaviour w.heap code h) (hwrites : ∀ c ∈ writes, c.Respects removed)
    (hafter : (after (op.run behaviour caller) w).heap = writes.foldl Change.apply h) :
    Performed behaviour w.heap (code ++ writes) (after (op.run behaviour caller) w).heap

/-- **The changes of operations make up the change of the heap.** -/
theorem Performed.eq_foldl {behaviour : Intrinsic → κ} {h h' : Heap κ} {cs : List (Change κ)}
    (hp : Performed behaviour h cs h') : h' = cs.foldl Change.apply h := by
  induction hp with
  | nothing | add => rfl
  | inOrder _ _ ih₁ ih₂ => rw [List.foldl_append, ← ih₁, ih₂]
  | operation _ _ _ hafter ih => rw [List.foldl_append, ← ih, hafter]

/-- From one heap to another by operations. -/
def Performs (behaviour : Intrinsic → κ) (h h' : Heap κ) : Prop :=
  ∃ cs, Performed behaviour h cs h'

namespace Performs

variable {behaviour : Intrinsic → κ}

theorem passage : Heap.Passage (Performs behaviour) where
  refl h := ⟨[], .nothing h⟩
  trans := fun ⟨_, h₁₂⟩ ⟨_, h₂₃⟩ => ⟨_, h₁₂.inOrder h₂₃⟩
  wrap _ := ⟨_, .add _ _⟩

theorem operation (op : Operation) (hop : op.isEdit = false) {caller : Caller κ σ}
    (hc : CallsAlong (Performs behaviour) caller) (w : World κ σ) :
    Along (Performs behaviour) (op.run behaviour caller) w := by
  obtain ⟨h, ⟨code, hcode⟩, removed, writes, hwrites, hafter⟩ :=
    writes_once passage hc behaviour hop w
  exact ⟨_, .operation hop hcode hwrites hafter⟩

/-- One operation, where functions that are called do nothing. -/
theorem single (op : Operation) (hop : op.isEdit = false) (h : Heap κ) : Performs behaviour h
    (after (op.run behaviour fun _ _ _ => pure .undefined) ⟨h, ()⟩).heap :=
  operation op hop (passage.calls fun _ _ _ w _ => passage.pure _ w) ⟨h, ()⟩

/-- Operations make up a course, in which objects are made and properties defined at will. -/
theorem course : Heap.Course (fun _ _ => True) (fun _ _ _ _ => True) (Performs behaviour) where
  toPassage := passage
  add _ := ⟨_, .add _ _⟩
  close h r := single (.preventExtensions (.object r)) rfl h
  delete h r key := by
    have hp : Performs behaviour h _ := single (.delete (.object r) key false) rfl h
    rwa [Operation.run, heap_after_delete] at hp
  define hc v key d w _ strict := operation (.define v key d strict) rfl hc w
  plain _ _ _ := trivial

end Performs

end Heap

/-! ## Worlds reached from nothing -/

theorem Rule.noEdits_performs : (noEdits : Rule σ).Keeps (Heap.Performs .provided) := by
  have hR : Heap.Course _ _ (Heap.Performs (.provided : Intrinsic → Behaviour σ)) :=
    Heap.Performs.course
  refine ⟨?_, ?_, ?_, ?_⟩
  · intro caller hc op w h
    exact Heap.Performs.operation op (by simpa [noEdits] using h) hc w
  · intro caller hc i this args w _ _
    refine hR.provided hc ?_
    cases i with
    | getOwnPropertyDescriptor => exact fun _ _ _ => trivial
    | defineProperty => exact fun _ _ _ _ _ _ => trivial
    | _ => exact trivial
  · exact fun _ _ => hR.add trivial
  · exact fun _ _ => hR.add trivial

/-- No key of an object occurs twice. -/
theorem nodup_invariant :
    Heap.Invariant (fun (_ : Heap (Behaviour σ)) _ o => o.properties.keys.Nodup)
      fun _ _ _ => True := by
  have hinsert : ∀ {o : ObjectRecord (Behaviour σ)} {key : String} {p : Property},
      o.properties.keys.Nodup → (o.insert key p).properties.keys.Nodup := by
    intro o key p ho
    rw [ObjectRecord.properties_insert, Properties.keys_insert]
    split
    · exact ho
    · exact List.nodup_append.mpr ⟨ho, List.nodup_singleton key, by
        rintro _ hk _ hlast rfl
        rw [List.mem_singleton.mp hlast] at hk
        exact absurd hk ‹_›⟩
  exact
    { later := fun _ ho => ho
      plain := fun ho => ho.nodup
      close := fun ho => ho
      store := fun ho _ => hinsert ho
      insert := fun ho _ _ => hinsert ho
      erase := fun key ho => by simpa using ho.erase key
      halves_none := fun _ => trivial
      halves_later := fun _ _ => trivial }

/-- No direct edits, and an object that is made with properties has no key twice. -/
def Rule.distinct : Rule σ
  | _, .perform op, _ => !op.isEdit
  | _, .build shape, _ => decide shape.properties.keys.Nodup
  | _, _, _ => true

theorem Rule.distinct_keeps : (distinct : Rule σ).Keeps
    (Heap.Keeps fun _ _ o => o.properties.keys.Nodup) := by
  have hQ := @nodup_invariant σ
  refine ⟨?_, ?_, ?_, ?_⟩
  · intro caller hc op w h
    refine hQ.course.run hc (hQ.newRealm w) ?_
    cases op with
    | store | unstore | setPrototype => cases h
    | put => exact fun _ _ _ _ => trivial
    | defineProperty => exact fun _ _ _ _ _ _ => trivial
    | newObject => exact fun _ => List.nodup_nil
    | newArray values => exact fun _ => Properties.nodup_indexed _ values _
    | _ => exact trivial
  · intro caller hc i this args w _ _
    refine hQ.course.provided hc ?_
    cases i with
    | toObject => exact fun _ => List.nodup_nil
    | getOwnPropertyDescriptor => exact fun _ _ _ _ => List.nodup_nil
    | defineProperty => exact fun _ _ _ _ _ _ => trivial
    | _ => exact trivial
  · exact fun _ _ => hQ.keeps_push fun _ => List.nodup_nil
  · exact fun _ h => hQ.keeps_push fun _ => of_decide_eq_true h

/-- The keys of distinct properties that meet a test are those whose property meets it. -/
theorem Properties.filter_keys {ps : Properties} (hps : ps.keys.Nodup) (test : Property → Bool) :
    (ps.keys.filter fun key => ((ps.get? key).map test).getD false) =
      keys (ps.filter fun x => test x.2) := by
  have hget : ∀ x ∈ ps, ps.get? x.1 = some x.2 := by
    intro x hx
    induction ps with
    | nil => cases hx
    | cons y rest ih =>
      obtain ⟨k, q⟩ := y
      obtain ⟨hk, hrest⟩ := List.nodup_cons.mp hps
      rw [get?_cons]
      rcases List.mem_cons.mp hx with rfl | hx
      · rw [if_pos rfl]
      · have hne : k ≠ x.1 := fun he => hk (List.mem_map.mpr ⟨x, hx, he.symm⟩)
        rw [if_neg hne, ih hrest hx]
  rw [keys, keys, List.filter_map]
  refine congrArg _ (List.filter_congr fun x hx => ?_)
  rw [Function.comp_apply, hget x hx]
  rfl

/--
**Keys are distinct and in order of creation.** In a world that user code reaches from nothing
without direct edits, where objects that are made with properties have no key twice:

* no object has a key twice;
* any world that is reached from there is reached by operations, each of which runs code and then
  writes without storing a key again that it removes, and by new objects; the heap is what their
  changes in order make of it, and the keys of each object are those of the replay, in which a new
  key comes last, a key that is removed is erased, and no key moves otherwise;
* each operation runs code, which goes along what its calls go along, and then writes without
  storing a key again that it removes: the keys that stay keep their order, and new ones come last;
* the keys that are listed are those of the enumerable properties, in this order.
-/
theorem World.ReachesUnder.keys_in_order {s : σ} {w : World (Behaviour σ) σ}
    (hw : ReachesUnder Rule.distinct ⟨#[], s⟩ w) :
    (∀ v, (w.heap.ownKeys v).Nodup) ∧
    (∀ w', w.ReachesUnder Rule.noEdits w' → ∃ cs : List (Heap.Change (Behaviour σ)),
      Heap.Performed .provided w.heap cs w'.heap ∧
        w'.heap = cs.foldl Heap.Change.apply w.heap ∧
        w'.heap.keyLists = cs.foldl Heap.Change.replay w.heap.keyLists) ∧
    (∀ (op : Operation) (caller : Caller (Behaviour σ) σ) T, op.isEdit = false →
      Heap.Passage T → Eval.CallsAlong T caller → ∃ h, T w.heap h ∧
        let h' := (Eval.after (op.run .provided caller) w).heap
        h.Tidy h' ∧ ∀ r < h.size, KeysFollow (h.ownKeys (.object r)) (h'.ownKeys (.object r))) ∧
    ∀ r o, w.heap[r]? = some o →
      Eval.keys (.object r) w =
        .ok (Properties.keys (o.properties.filter fun x => x.2.enumerable)) w := by
  have hkeeps := hw.along nodup_invariant.passage Rule.distinct_keeps
  have hall := hkeeps.2 (Heap.all_empty _)
  refine ⟨fun v => ?_, fun w' hw' => ?_, fun op caller T hop hT hc => ?_, fun r o ho => ?_⟩
  · rw [Heap.ownKeys]
    cases ho : w.heap.record? v with
    | none => exact List.nodup_nil
    | some o =>
      cases v with
      | object r => exact hall r o ho
      | _ => cases ho
  · obtain ⟨cs, hcs⟩ := hw'.along Heap.Performs.passage Rule.noEdits_performs
    exact ⟨cs, hcs, hcs.eq_foldl, by rw [hcs.eq_foldl, Heap.Change.keyLists_foldl]⟩
  · obtain ⟨h, ht, htidy⟩ := Eval.writes_once hT hc .provided hop w
    exact ⟨h, ht, htidy, fun r hr => htidy.follow hr⟩
  · have hkeys : w.heap.ownKeys (.object r) = o.properties.keys := by
      rw [Heap.ownKeys, Heap.record?, ho]
      rfl
    have hown : ∀ key, w.heap.own? (.object r) key = o.properties.get? key := fun key =>
      Heap.own?_eq ho
    show EStateM.Result.ok ((w.heap.ownKeys (.object r)).filter fun key =>
      ((w.heap.own? (.object r) key).map (·.enumerable)).getD false) w = _
    simp only [hkeys, hown]
    rw [Properties.filter_keys (hall r o ho)]

/-- User code that empties an array with a hidden property, and gives it an element again. -/
def refillArray : Program Unit :=
  .perform (.newArray [.null] none) fun _ =>
  .perform (.define (.object 0) "p" { value := some .null } true) fun _ =>
  .perform (.put (.object 0) "length" (.number .zero) true) fun _ =>
  .perform (.put (.object 0) "0" .null true) fun _ => .done .undefined

/-- The world that `refillArray` reaches from nothing. -/
def refilledWorld : World (Behaviour Unit) Unit :=
  Eval.after (refillArray.runUnder Rule.distinct (behaviourUnder Rule.distinct 0)) ⟨#[], ()⟩

/-- An element that was removed and stored again comes last, and is the only key that is listed. -/
theorem World.ReachesUnder.keys_in_order_refilled :
    ReachesUnder Rule.distinct ⟨#[], ()⟩ refilledWorld ∧
      (refilledWorld.heap.ownKeys (.object 0)).Nodup ∧
      refilledWorld.heap.ownKeys (.object 0) = ["length", "p", "0"] ∧
      Eval.keys (.object 0) refilledWorld = .ok ["0"] refilledWorld := by
  have hw : ReachesUnder Rule.distinct ⟨#[], ()⟩ refilledWorld :=
    ⟨Rule.distinct, 0, refillArray, fun _ _ _ => id, rfl⟩
  obtain ⟨hnodup, -, -, hkeys⟩ := hw.keys_in_order
  have hone : refilledWorld.heap[0]?.map (fun o =>
      Properties.keys (o.properties.filter fun x => x.2.enumerable)) = some ["0"] := by
    decide +kernel
  obtain ⟨o, ho, hlisted⟩ := Option.map_eq_some_iff.mp hone
  exact ⟨hw, hnodup _, by decide +kernel, hlisted ▸ hkeys 0 o ho⟩

end Es5
