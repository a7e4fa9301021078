import Es5.Proofs.Reachable
import Mathlib.Data.Set.Basic
import Mathlib.Logic.Function.Basic

/-!
# Realms side by side

A session has realms in one heap. Each realm has a room, with the state of its host and the results
so far, and code that acts for a realm is given no more than that. A turn of one realm changes no
object of another, and what the turns of one realm give does not depend on the others.

* `Turn`, `Session.turn`, `Session.run`: realms are opened, and code acts for them.
* `Turn.Confined`: code that names no object but those that it is given.
* `Session.objects`: the objects that are reached from the room of a realm.
* `Session.Separate`: each realm is paired with a session of its own, and no two with one object.
* **`Separate.turn`**, `Separate.run`: realms stay separate.
* **`Session.isolated`**: realms share nothing.
-/

namespace Es5

open Eval

variable {ι σ : Type}

/-! ## Sessions -/

/-- What is done next in a session. -/
inductive Turn (ι σ : Type) where
  /-- Opens a realm, unless it is open. -/
  | opens (k : ι)
  /-- Runs code for a realm that is open, given the realm and its results so far. -/
  | acts (k : ι) (code : Realm → List (Except Abrupt Value) → Program σ)

/-- The realm whose turn it is. -/
def Turn.owner : Turn ι σ → ι
  | opens k => k
  | acts k _ => k

/-- What code of a realm starts from: its objects, the state of its host, and the latest results. -/
structure Room (σ : Type) where
  realm : Realm
  host : σ
  results : List (Except Abrupt Value)

/-- Realms in one heap. -/
structure Session (ι σ : Type) where
  heap : Heap (Behaviour σ)
  room : ι → Option (Room σ)

/-- How an action ends, and the world that it leads to. -/
def Eval.ended {κ α : Type} (m : Eval κ σ α) (w : World κ σ) : Except Abrupt α × World κ σ :=
  match m w with
  | .ok a w => (.ok a, w)
  | .error e w => (.error e, w)

namespace Session

variable [DecidableEq ι] (depth : Nat) (start : ι → σ)

/-- The session with another heap, and another room for one realm. -/
def enter (st : Session ι σ) (k : ι) (heap : Heap (Behaviour σ)) (room : Room σ) : Session ι σ where
  heap := heap
  room := Function.update st.room k (some room)

/-- One turn, with calls nested at most `depth` deep. The host of a realm starts as in `start`. -/
def turn (st : Session ι σ) : Turn ι σ → Session ι σ
  | .opens k =>
    match st.room k with
    | some _ => st
    | none =>
      match Eval.ended (Eval.newRealm .provided) ⟨st.heap, start k⟩ with
      | (.ok realm, w) => st.enter k w.heap ⟨realm, w.host, []⟩
      | (.error _, w) => { st with heap := w.heap }
  | .acts k code =>
    match st.room k with
    | none => st
    | some room =>
      match Eval.ended ((code room.realm room.results).run (runBehaviour depth))
          ⟨st.heap, room.host⟩ with
      | (result, w) => st.enter k w.heap ⟨room.realm, w.host, result :: room.results⟩

/-- Turn after turn, from a heap in which no realm is open. -/
def run (h : Heap (Behaviour σ)) (turns : List (Turn ι σ)) : Session ι σ :=
  turns.foldl (turn depth start) ⟨h, fun _ => none⟩

end Session

/-! ## Objects of a realm -/

/-- The values that code of the realm is given. -/
def Room.Holds (room : Room σ) (v : Value) : Prop := v ∈ room.realm.values ∨ .ok v ∈ room.results

/-- The objects that are reached from the room of a realm. -/
def Session.objects (st : Session ι σ) (k : ι) : Set Ref :=
  {r | ∃ room v, st.room k = some room ∧ room.Holds v ∧ st.heap.Reaches v r}

/-- Rooms with related contents. -/
structure Room.Renamed (S : HostLikeness σ σ) (β : Renaming) (room room' : Room σ) : Prop where
  realm : Realm.Renamed β room.realm room'.realm
  host : S.Rel β room.host room'.host
  results : List.Forall₂ (Renaming.Caught Value.Renamed β) room.results room'.results

/-- Code that names no object but those that it is given. -/
def Turn.Confined (S : HostLikeness σ σ) : Turn ι σ → Prop
  | opens _ => True
  | acts _ code => ∀ (β : Renaming) (realm realm' : Realm) (results results' : List _),
    Realm.Renamed β realm realm' →
    List.Forall₂ (Renaming.Caught Value.Renamed β) results results' →
    Program.Renamed S β (code realm results) (code realm' results')

theorem Room.Renamed.exists_of_holds {S : HostLikeness σ σ} {β : Renaming} {room room' : Room σ}
    (h : Room.Renamed S β room room') {v : Value} (hv : room.Holds v) :
    ∃ v', Value.Renamed β v v' := by
  rcases hv with hv | hv
  · obtain ⟨v', -, hvv⟩ := exists_of_forall₂ h.realm.values hv
    exact ⟨v', hvv⟩
  · obtain ⟨a', -, ha⟩ := exists_of_forall₂ h.results hv
    cases ha with
    | ok hvv => exact ⟨_, hvv⟩

/-! ## One turn -/

/-- Actions that are alike end alike. -/
theorem Eval.Alike.ended {κ α α' : Type} {L : Likeness κ κ σ σ} {β : Renaming}
    {A : Renaming → α → α' → Prop} {m : Eval κ σ α} {m' : Eval κ σ α'} (hm : Alike L β A m m')
    {w w' : World κ σ} (hw : w.Renamed L β w') :
    ∃ γ, w.Leads L β w' γ (Eval.ended m w).2 (Eval.ended m' w').2 ∧
      Renaming.Caught A γ (Eval.ended m w).1 (Eval.ended m' w').1 := by
  have hends := hm β le_rfl w w' hw
  unfold Eval.ended
  generalize m w = r, m' w' = r' at hends
  cases hends with
  | ok hleads ha => exact ⟨_, hleads, .ok ha⟩
  | error hleads e => exact ⟨_, hleads, .error e⟩

namespace Session

variable {S : HostLikeness σ σ} {h : Heap (Behaviour σ)}

/--
A session in which each realm is paired with a session of its own. The objects that were there first
are not paired, and no object is paired for two realms.
-/
structure Separate (S : HostLikeness σ σ) (h : Heap (Behaviour σ)) (β : ι → Renaming)
    (st : Session ι σ) (alone : ι → Session ι σ) : Prop where
  kept : h.Extends st.heap
  heap : ∀ k, st.heap.Renamed (Behaviour.Renamed S) (β k) (alone k).heap
  room : ∀ k, Option.Rel (Room.Renamed S (β k)) (st.room k) ((alone k).room k)
  fresh : ∀ k r s, β k r s → h.size ≤ r
  apart : ∀ j k r s t, β j r s → β k r t → j = k

/-- What a turn leaves: the rooms of the other realms, and all objects that are not paired. -/
structure Leaves (k : ι) (β : Renaming) (st st' : Session ι σ) : Prop where
  room : ∀ j ≠ k, st'.room j = st.room j
  heap : st.heap.Untouched (fun r => ∃ s, β r s) st'.heap

variable {st : Session ι σ} {alone : ι → Session ι σ} {β : ι → Renaming}

theorem separate_start (S : HostLikeness σ σ) (h h' : Heap (Behaviour σ)) :
    Separate S h (fun _ : ι => .empty) ⟨h, fun _ => none⟩ (fun _ => ⟨h', fun _ => none⟩) where
  kept _ _ ho := ho
  heap _ _ _ hr := hr.elim
  room _ := .none
  fresh _ _ _ hr := hr.elim
  apart _ _ _ _ _ hr := hr.elim

/-- The objects of a realm are paired. -/
theorem Separate.exists_of_mem (hst : Separate S h β st alone) {k : ι} {r : Ref}
    (hr : r ∈ st.objects k) : ∃ s, β k r s := by
  obtain ⟨room, v, hroom, hv, hreach⟩ := hr
  obtain ⟨room', hrooms⟩ := exists_of_rel (hst.room k) hroom
  obtain ⟨v', hvv⟩ := hrooms.exists_of_holds hv
  exact (hst.heap k).exists_of_reaches hvv hreach

/-- The objects of a realm are the same where its room and their records are. -/
theorem objects_eq_of_kept {st' : Session ι σ} {k : ι} (hroom : st'.room k = st.room k)
    (hkept : ∀ r ∈ st.objects k, st'.heap[r]? = st.heap[r]?) : st'.objects k = st.objects k := by
  ext r
  simp only [objects, Set.mem_ofPred_eq, hroom]
  refine exists_congr fun room => exists_congr fun v => and_congr_right fun hr =>
    and_congr_right fun hv => ?_
  exact Heap.reaches_iff_of_kept (fun s hs => hkept s ⟨room, v, hr, hv, hs⟩) r

theorem Leaves.refl (k : ι) (δ : Renaming) (st : Session ι σ) : st.Leaves k δ st :=
  ⟨fun _ _ => rfl, .refl _ _⟩

variable [DecidableEq ι]

@[simp] theorem enter_room_self (st : Session ι σ) (k : ι) (heap : Heap (Behaviour σ))
    (room : Room σ) : (st.enter k heap room).room k = some room := Function.update_self ..

theorem enter_room_of_ne (st : Session ι σ) {j k : ι} (hj : j ≠ k) (heap : Heap (Behaviour σ))
    (room : Room σ) : (st.enter k heap room).room j = st.room j := Function.update_of_ne hj ..

/-- A realm enters what it was led to, and the others stay as they are. -/
theorem Separate.enter (hst : Separate S h β st alone) {k : ι} {γ : Renaming} {s s' : σ}
    {w w' : World (Behaviour σ) σ}
    (hleads : World.Leads S.code (β k) ⟨st.heap, s⟩ ⟨(alone k).heap, s'⟩ γ w w')
    {room room' : Room σ} (hroom : Room.Renamed S γ room room') :
    Separate S h (Function.update β k γ) (st.enter k w.heap room)
      (Function.update alone k ((alone k).enter k w'.heap room')) := by
  have hsize : h.size ≤ st.heap.size := by
    refine Nat.le_of_not_lt fun hlt => ?_
    have ho := hst.kept _ _ (Array.getElem?_eq_getElem hlt)
    exact Nat.lt_irrefl _ (Array.getElem?_eq_some_iff.mp ho).1
  -- What is paired for another realm is there already, and is not paired for `k`.
  have hother : ∀ j, j ≠ k → ∀ r s, β j r s → r < st.heap.size ∧ ¬∃ t, β k r t :=
    fun j hj r s hr => ⟨((hst.heap j).lt_size hr).1, fun ⟨t, ht⟩ => hj (hst.apart j k r s t hr ht)⟩
  have hnew : ∀ j, j ≠ k → ∀ r s t, β j r s → ¬γ r t := fun j hj r s t hr ht => by
    rcases hleads.fresh r t ht with hold | hnew
    · exact (hother j hj r s hr).2 ⟨t, hold⟩
    · exact absurd (hother j hj r s hr).1 (Nat.not_lt.mpr hnew.1)
  refine ⟨fun r o ho => ?_, fun j => ?_, fun j => ?_, fun j r t hr => ?_, fun i j r t u ht hu => ?_⟩
  · have hlt := (Array.getElem?_eq_some_iff.mp ho).1
    have hfree : ¬∃ t, β k r t := fun ⟨t, ht⟩ => absurd hlt (Nat.not_lt.mpr (hst.fresh k r t ht))
    exact (hleads.left.kept r (Nat.lt_of_lt_of_le hlt hsize) hfree).trans (hst.kept r o ho)
  · by_cases hj : j = k
    · subst hj
      rw [Function.update_self, Function.update_self]
      exact hleads.worlds.heap
    · rw [Function.update_of_ne hj, Function.update_of_ne hj]
      intro r s hr
      obtain ⟨o, o', ho, ho', hoo⟩ := hst.heap j r s hr
      obtain ⟨hlt, hfree⟩ := hother j hj r s hr
      exact ⟨o, o', (hleads.left.kept r hlt hfree).trans ho, ho', hoo⟩
  · by_cases hj : j = k
    · subst hj
      rw [Function.update_self, Function.update_self, enter_room_self, enter_room_self]
      exact .some hroom
    · rw [Function.update_of_ne hj, Function.update_of_ne hj, enter_room_of_ne _ hj]
      exact hst.room j
  · by_cases hj : j = k
    · subst hj
      rw [Function.update_self] at hr
      rcases hleads.fresh r t hr with hold | hnew
      · exact hst.fresh j r t hold
      · exact Nat.le_trans hsize hnew.1
    · rw [Function.update_of_ne hj] at hr
      exact hst.fresh j r t hr
  · by_cases hi : i = k <;> by_cases hj : j = k
    · rw [hi, hj]
    · rw [hi, Function.update_self] at ht
      rw [Function.update_of_ne hj] at hu
      exact absurd ht (hnew j hj r u t hu)
    · rw [hj, Function.update_self] at hu
      rw [Function.update_of_ne hi] at ht
      exact absurd hu (hnew i hi r t u ht)
    · rw [Function.update_of_ne hi] at ht
      rw [Function.update_of_ne hj] at hu
      exact hst.apart i j r t u ht hu

theorem leaves_enter {k : ι} {δ γ : Renaming} {s s' : σ} {heap' : Heap (Behaviour σ)}
    {w w' : World (Behaviour σ) σ}
    (hleads : World.Leads S.code δ ⟨st.heap, s⟩ ⟨heap', s'⟩ γ w w') (room : Room σ) :
    st.Leaves k δ (st.enter k w.heap room) where
  room _ hj := enter_room_of_ne _ hj _ _
  heap := hleads.left

variable (depth : Nat) {start : ι → σ}

/-- **Realms stay separate over one turn**, which leaves the objects of all but its owner. -/
theorem Separate.turn (hst : Separate S h β st alone)
    (hstart : ∀ k, S.Rel .empty (start k) (start k)) {t : Turn ι σ} (ht : t.Confined S) :
    ∃ γ, Separate S h (Function.update β t.owner γ) (st.turn depth start t)
        (Function.update alone t.owner ((alone t.owner).turn depth start t)) ∧
      st.Leaves t.owner (β t.owner) (st.turn depth start t) := by
  have hrooms := hst.room t.owner
  cases t with
  | opens k =>
    simp only [Turn.owner, Session.turn] at hrooms ⊢
    generalize hroom : st.room k = room, hroom' : (alone k).room k = room' at hrooms
    cases hrooms with
    | some hrooms =>
      refine ⟨β k, ?_, .refl k _ st⟩
      rw [Function.update_eq_self, Function.update_eq_self]
      exact hst
    | none =>
      have hhost := S.mono (Renaming.empty_le (β k)) _ _ (hstart k)
      have hworlds : World.Renamed S.code (β k) ⟨st.heap, start k⟩ ⟨(alone k).heap, start k⟩ :=
        ⟨hst.heap k, hhost⟩
      have halike := Alike.newRealm (β := β k) S.code_provided
      obtain ⟨γ, hleads, hends⟩ := halike.ended hworlds
      obtain ⟨w₁, hw₁⟩ := exists_newRealm Behaviour.provided
        (⟨st.heap, start k⟩ : World (Behaviour σ) σ)
      obtain ⟨w₁', hw₁'⟩ := exists_newRealm Behaviour.provided
        (⟨(alone k).heap, start k⟩ : World (Behaviour σ) σ)
      simp only [Eval.ended, hw₁, hw₁'] at hleads hends ⊢
      cases hends with
      | ok hrealm =>
        exact ⟨γ, hst.enter hleads ⟨hrealm, hleads.worlds.host, .nil⟩, leaves_enter hleads _⟩
  | acts k code =>
    simp only [Turn.owner, Session.turn] at hrooms ⊢
    generalize hroom : st.room k = room, hroom' : (alone k).room k = room' at hrooms
    cases hrooms with
    | none =>
      refine ⟨β k, ?_, .refl k _ st⟩
      rw [Function.update_eq_self, Function.update_eq_self]
      exact hst
    | @some room room' hrooms =>
      have hcode := ht (β k) _ _ _ _ hrooms.realm hrooms.results
      have halike := hcode.alike (callsAlike_runBehaviour S depth)
      have hworlds : World.Renamed S.code (β k) ⟨st.heap, room.host⟩
          ⟨(alone k).heap, room'.host⟩ := ⟨hst.heap k, hrooms.host⟩
      obtain ⟨γ, hleads, hends⟩ := halike.ended hworlds
      refine ⟨γ, hst.enter hleads ⟨hrooms.realm.mono hleads.le, hleads.worlds.host, ?_⟩,
        leaves_enter hleads _⟩
      exact .cons hends (hrooms.results.imp fun _ _ ha => by
        cases ha with
        | ok hv => exact .ok (hv.mono hleads.le)
        | error e => exact .error e)

/-! ## Turn after turn -/

/-- The turns of one realm. -/
def turnsOf (k : ι) (turns : List (Turn ι σ)) : List (Turn ι σ) := turns.filter (·.owner = k)

/-- **Realms stay separate**, each paired with the session of its own turns. -/
theorem Separate.foldl (hstart : ∀ k, S.Rel .empty (start k) (start k)) :
    ∀ {turns : List (Turn ι σ)} {st : Session ι σ} {alone : ι → Session ι σ} {β : ι → Renaming},
      Separate S h β st alone → (∀ t ∈ turns, t.Confined S) →
      ∃ γ, Separate S h γ (turns.foldl (Session.turn depth start) st)
        fun k => (turnsOf k turns).foldl (Session.turn depth start) (alone k)
  | [], _, _, β, hst, _ => ⟨β, hst⟩
  | t :: turns, st, alone, β, hst, hturns => by
    obtain ⟨γ, hst₁, -⟩ := hst.turn depth hstart (hturns t List.mem_cons_self)
    obtain ⟨δ, hst₂⟩ := Separate.foldl hstart hst₁
      fun u hu => hturns u (List.mem_cons_of_mem _ hu)
    have halone : (fun k => (turnsOf k turns).foldl (Session.turn depth start)
        (Function.update alone t.owner ((alone t.owner).turn depth start t) k)) =
        fun k => (turnsOf k (t :: turns)).foldl (Session.turn depth start) (alone k) := by
      funext k
      by_cases hk : t.owner = k
      · rw [turnsOf, turnsOf, List.filter_cons_of_pos (by simpa using hk), hk,
          Function.update_self, List.foldl_cons]
      · rw [turnsOf, turnsOf, List.filter_cons_of_neg (by simpa using hk),
          Function.update_of_ne (Ne.symm hk)]
    rw [halone] at hst₂
    exact ⟨δ, hst₂⟩

/-- **Turns of other realms** leave the room of a realm and all that is paired for it. -/
theorem Separate.foldl_others (hstart : ∀ k, S.Rel .empty (start k) (start k)) (k : ι) :
    ∀ {turns : List (Turn ι σ)} {st : Session ι σ} {alone : ι → Session ι σ} {β : ι → Renaming},
      Separate S h β st alone → (∀ t ∈ turns, t.Confined S ∧ t.owner ≠ k) →
      (turns.foldl (Session.turn depth start) st).room k = st.room k ∧
        ∀ r s, β k r s → (turns.foldl (Session.turn depth start) st).heap[r]? = st.heap[r]?
  | [], _, _, _, _, _ => ⟨rfl, fun _ _ _ => rfl⟩
  | t :: turns, st, alone, β, hst, hturns => by
    obtain ⟨ht, hk⟩ := hturns t List.mem_cons_self
    obtain ⟨γ, hst₁, hleaves⟩ := hst.turn depth hstart ht
    obtain ⟨hroom, hheap⟩ := Separate.foldl_others hstart k hst₁
      fun u hu => hturns u (List.mem_cons_of_mem _ hu)
    rw [Function.update_of_ne (Ne.symm hk)] at hheap
    refine ⟨hroom.trans (hleaves.room k (Ne.symm hk)), fun r s hr => (hheap r s hr).trans ?_⟩
    exact hleaves.heap.kept r ((hst.heap k).lt_size hr).1
      fun ⟨u, hu⟩ => hk (hst.apart t.owner k r u s hu hr)

/--
**Realms share nothing.** A realm is always made, of new objects only. However the turns of several
realms follow each other, the objects that were there first stay as they are, the objects of a
realm are new and none is an object of another realm, and further turns of other realms change
neither the room of a realm nor its objects. What the turns of a realm lead to is what they lead to
alone, from any heap, but for the places of objects; and this pairs, apart for each realm, all that
its functions hold.
-/
theorem isolated (S : HostLikeness σ σ) (depth : Nat) (start : ι → σ)
    (hstart : ∀ k, S.Rel .empty (start k) (start k)) (h : Heap (Behaviour σ))
    {turns : List (Turn ι σ)} (hturns : ∀ t ∈ turns, t.Confined S) :
    (∀ w : World (Behaviour σ) σ, ∃ (realm : Realm) (w₁ : World (Behaviour σ) σ),
      Eval.newRealm .provided w = .ok realm w₁ ∧ w.heap.Extends w₁.heap ∧
        ∀ v ∈ realm.values, v.isObject = true ∧ ∀ r, w₁.heap.Reaches v r → w.heap.size ≤ r) ∧
    let st := run depth start h turns
    h.Extends st.heap ∧
    (∀ k, ∀ r ∈ st.objects k, h.size ≤ r) ∧
    (∀ j k, j ≠ k → ∀ r ∈ st.objects j, r ∉ st.objects k) ∧
    (∀ k further, (∀ t ∈ further, t.Confined S ∧ t.owner ≠ k) →
      let st' := run depth start h (turns ++ further)
      st'.room k = st.room k ∧ st'.objects k = st.objects k ∧
        ∀ r ∈ st.objects k, st'.heap[r]? = st.heap[r]?) ∧
    ∀ h' : Heap (Behaviour σ), ∃ β : ι → Renaming,
      Separate S h β st (fun k => run depth start h' (turnsOf k turns)) ∧
      ∀ k further, (∀ t ∈ further, t.Confined S ∧ t.owner ≠ k) → ∀ r s, β k r s →
        (run depth start h (turns ++ further)).heap[r]? = st.heap[r]? := by
  have hseparate : ∀ h' : Heap (Behaviour σ), ∃ β, Separate S h β (run depth start h turns)
      fun k => run depth start h' (turnsOf k turns) := fun h' =>
    (separate_start S h h').foldl depth hstart hturns
  obtain ⟨β, hst⟩ := hseparate h
  refine ⟨newRealm_apart, hst.kept, fun k r hr => ?_, fun j k hne => ?_, fun k further hf => ?_,
    fun h' => ?_⟩
  · obtain ⟨s, hs⟩ := hst.exists_of_mem hr
    exact hst.fresh k r s hs
  · intro r hj hk
    obtain ⟨s, hs⟩ := hst.exists_of_mem hj
    obtain ⟨t, ht⟩ := hst.exists_of_mem hk
    exact hne (hst.apart j k r s t hs ht)
  · obtain ⟨hroom, hheap⟩ := hst.foldl_others depth hstart k hf
    rw [run, List.foldl_append]
    have hkept : ∀ r ∈ (run depth start h turns).objects k, _ := fun r hr =>
      hheap r _ (hst.exists_of_mem hr).choose_spec
    exact ⟨hroom, objects_eq_of_kept hroom hkept, hkept⟩
  · obtain ⟨β, hst⟩ := hseparate h'
    refine ⟨β, hst, fun k further hf r s hr => ?_⟩
    rw [run, List.foldl_append]
    exact (hst.foldl_others depth hstart k hf).2 r s hr

/-- Makes an object and a function that marks it, calls the function, and gives it. -/
def capturing (realm : Realm) (_ : List (Except Abrupt Value)) : Program Unit :=
  .perform (.newObject (some realm.objectPrototype)) fun
    | .error e => .fail e
    | .ok o =>
      .function (some realm.functionPrototype)
        (fun _ _ => .perform (.put o "marked" (.boolean true) true) fun
          | .error e => .fail e
          | .ok _ => .done o)
        fun f => .perform (.call f .undefined []) fun
          | .error e => .fail e
          | .ok _ => .done f

theorem confined_capturing (k : Bool) : (Turn.acts k capturing).Confined (.same Unit) := by
  intro β realm realm' _ _ hrealm _
  refine .perform (.newObject (.some hrealm.objectPrototype)) fun γ hγ a a' ha => ?_
  cases ha with
  | error e => exact .fail e
  | ok ho =>
    refine .function (.some (hrealm.functionPrototype.mono hγ)) (fun δ hδ _ _ _ _ _ _ => ?_)
      fun δ hδ f f' hf => ?_
    · refine .perform (.put (ho.mono hδ) "marked" (.plain _ rfl) true) fun ε hε b b' hb => ?_
      cases hb with
      | error e => exact .fail e
      | ok => exact .done ((ho.mono hδ).mono hε)
    · refine .perform (.call hf .undefined .nil) fun ε hε b b' hb => ?_
      cases hb with
      | error e => exact .fail e
      | ok => exact .done (hf.mono hε)

/-- Two realms, one of which acts before and after the other. -/
theorem isolated_capturing :
    let turns : List (Turn Bool Unit) := [.opens false, .opens true, .acts true capturing,
      .acts false capturing, .acts true capturing]
    let st := run 2 (fun _ => ()) #[] turns
    (∀ t ∈ turns, t.Confined (.same Unit)) ∧
      (st.room false).map (·.results) = some [.ok (.object 37)] ∧
      (st.room true).map (·.results) = some [.ok (.object 39), .ok (.object 35)] ∧
      ∀ r ∈ st.objects false, r ∉ st.objects true := by
  intro turns st
  have hturns : ∀ t ∈ turns, t.Confined (.same Unit) := by
    simp only [turns, List.forall_mem_cons, List.not_mem_nil, false_implies, implies_true, and_true]
    exact ⟨trivial, trivial, confined_capturing true, confined_capturing false,
      confined_capturing true⟩
  obtain ⟨-, -, -, hdisjoint, -⟩ := isolated (.same Unit) 2 (fun _ => ())
    (fun _ => rfl) #[] hturns
  exact ⟨hturns, by decide +kernel, by decide +kernel, hdisjoint false true (by decide)⟩

end Session

end Es5
