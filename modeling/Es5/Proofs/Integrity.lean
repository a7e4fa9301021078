import Es5.Proofs.Agreement
import Es5.Proofs.Permanent
import Es5.Proofs.Writes

/-!
# Integrity of objects

An object is bound by its permanent properties and by being closed, in every run without direct
edits, whatever functions are called meanwhile.

* `ObjectRecord.Binds`: what a record promises about later records of its object.
* **`Program.Obeys.binds`**: every promise is kept by every run without direct edits.
-/

namespace Es5

/--
What a record promises about every later record of its object: one that is not extensible stays so
and gets no new keys, and every permanent property stays and only changes as it admits.
-/
structure ObjectRecord.Binds {κ : Type} (o o' : ObjectRecord κ) : Prop where
  closed : o.extensible = false →
    o'.extensible = false ∧ ∀ key, o.own? key = none → o'.own? key = none
  fixed : ∀ key p, o.own? key = some p → p.configurable = false →
    ∃ q, o'.own? key = some q ∧ p.Admits q

namespace ObjectRecord

variable {κ : Type}

theorem binds_evolution : ObjectRecord.Evolution (@Binds κ) where
  refl o := ⟨fun h => ⟨h, fun _ hk => hk⟩, fun _ p hp hc => ⟨p, hp, Property.Admits.refl hc⟩⟩
  trans h₁₂ h₂₃ := by
    refine ⟨fun h => ?_, fun key p hp hc => ?_⟩
    · obtain ⟨he₂, hk₂⟩ := h₁₂.closed h
      obtain ⟨he₃, hk₃⟩ := h₂₃.closed he₂
      exact ⟨he₃, fun key hk => hk₃ key (hk₂ key hk)⟩
    · obtain ⟨q, hq, hpq⟩ := h₁₂.fixed key p hp hc
      obtain ⟨q', hq', hqq'⟩ := h₂₃.fixed key q hq hpq.configurable
      exact ⟨q', hq', hpq.trans hqq'⟩
  close o := ⟨fun _ => ⟨rfl, fun _ hk => hk⟩, fun _ p hp hc => ⟨p, hp, Property.Admits.refl hc⟩⟩
  insert {o key d q} hq := by
    refine ⟨fun h => ⟨h, fun key' hk => ?_⟩, fun key' p hp hc => ?_⟩
    · by_cases hkey : key' = key
      · -- A key that is not own cannot be defined where `extensible` is off.
        subst hkey
        rw [hk, Descriptor.applyTo?, if_neg (by simp [h])] at hq
        cases hq
      · rw [own?_insert_of_ne hkey, hk]
    · by_cases hkey : key' = key
      · subst hkey
        rw [hp] at hq
        exact ⟨q, own?_insert_self, Property.admits_of_applyTo? hc hq⟩
      · exact ⟨p, (own?_insert_of_ne hkey).trans hp, Property.Admits.refl hc⟩
  erase {o key q} hq hc := by
    refine ⟨fun h => ⟨h, fun key' hk => ?_⟩, fun key' p hp hc' => ?_⟩
    · rw [own?_eq_none_iff] at hk ⊢
      rw [erase, Properties.keys_erase]
      exact fun hmem => hk (List.mem_of_mem_erase hmem)
    · by_cases hkey : key' = key
      · subst hkey
        rw [hq] at hp
        cases hp
        rw [hc] at hc'
        cases hc'
      · exact ⟨p, (own?_erase_of_ne hkey).trans hp, Property.Admits.refl hc'⟩

end ObjectRecord

/--
**Promises are kept by every run without direct edits**, whichever operations it does on whichever
objects, whatever functions are called meanwhile and however it ends.
-/
theorem Program.Obeys.binds {σ : Type} {depth : Nat} {p : Program σ} {w : World (Behaviour σ) σ}
    (hp : p.Obeys Rule.noEdits depth w) {r : Ref} {o : ObjectRecord (Behaviour σ)}
    (ho : w.heap[r]? = some o) :
    ∃ o', (Eval.after (p.run (runBehaviour depth)) w).heap[r]? = some o' ∧ o.Binds o' :=
  hp.along (ObjectRecord.binds_evolution.heap _) Rule.noEdits_ensures r o ho

/--
A closed array with a permanent element, through a truncation that this element stops, while the
conversion of the length deletes another element.
-/
theorem Program.Obeys.binds_truncated :
    let o : ObjectRecord (Behaviour Unit) :=
      { kind := .array, extensible := false,
        properties := [("0", .plain .null), ("1", .data .null true true false),
          ("length", .data (.number (.ofNat 2)) true false false)] }
    let body : Value → List Value → Program Unit := fun _ _ =>
      .perform (.delete (.object 0) "0" true) fun _ => .done (.boolean false)
    let w : World (Behaviour Unit) Unit :=
      ⟨#[o, { kind := .function, call := some (.user body) },
        { kind := .object, properties := [("valueOf", .plain (.object 1))] }], ()⟩
    let p : Program Unit := .perform (.put (.object 0) "length" (.object 2) true) fun _ =>
      .perform (.put (.object 0) "0" .null true) fun _ => .done .undefined
    p.Obeys Rule.noEdits 1 w ∧
      ∃ o', (Eval.after (p.run (runBehaviour 1)) w).heap[0]? = some o' ∧ o.Binds o' := by
  intro o body w p
  have hp : p.Obeys Rule.noEdits 1 w := Program.obeys_of_ends (by decide +kernel)
  exact ⟨hp, hp.binds rfl⟩

end Es5
