import DeferredMarkup.Resolution

/-!
A resolution taken apart into its stages. It gives a finished text exactly when
the text can be placed, the markers be sorted and walked, and their texts be
put in. A stage that fails has left the text as it was, and so have all before
it. Records are left aside here.
-/
namespace DeferredMarkup

namespace Attempt

variable {α β : Type} {text left : String} {fault : Fault}

/-- What an attempt on a text comes to, and the text as it leaves it. Its records
are left out. -/
def result (x : Attempt α) (text : String) : Except Fault α × String :=
  ((ExceptT.run x).run text).value

theorem result_ofExcept (x : Except Fault α) : (ofExcept x).result text = (x, text) := rfl

theorem result_ofLogged (x : Logged α) : (ofLogged x).result text = (.ok x.value, text) := rfl

theorem result_pure (a : α) : (pure a : Attempt α).result text = (.ok a, text) := rfl

theorem result_get : (get : Attempt String).result text = (.ok text, text) := rfl

theorem result_bind (x : Attempt α) (f : α → Attempt β) : (x >>= f).result text =
    match x.result text with
    | (.ok a, left) => (f a).result left
    | (.error fault, left) => (.error fault, left) := by
  unfold result
  show (((ExceptT.bindCont f ((ExceptT.run x).run text).value.1).run
    ((ExceptT.run x).run text).value.2)).value = _
  rcases ((ExceptT.run x).run text).value with ⟨outcome, left⟩
  cases outcome with
  | ok a => rfl
  | error fault => rfl

/-- One attempt after another succeeds when both do, the second on the text that the
first has left. -/
theorem result_bind_eq_ok_iff {x : Attempt α} {f : α → Attempt β} {b : β} :
    (x >>= f).result text = (.ok b, left) ↔
      ∃ a between, x.result text = (.ok a, between) ∧ (f a).result between = (.ok b, left) := by
  rw [result_bind]
  rcases x.result text with ⟨outcome, between⟩
  cases outcome with
  | ok a => simp [and_assoc]
  | error fault => simp

/-- It fails when the first does, or the second after it. -/
theorem result_bind_eq_error_iff {x : Attempt α} {f : α → Attempt β} :
    (x >>= f).result text = (.error fault, left) ↔ x.result text = (.error fault, left) ∨
      ∃ a between, x.result text = (.ok a, between) ∧
        (f a).result between = (.error fault, left) := by
  rw [result_bind]
  rcases x.result text with ⟨outcome, between⟩
  cases outcome with
  | ok a => simp [and_assoc]
  | error fault' => simp

/-- Leaves every text as it is. -/
def Keeps (x : Attempt α) : Prop := ∀ text, (x.result text).2 = text

/-- Leaves a text as it is where it fails. -/
def KeepsOnFault (x : Attempt α) : Prop :=
  ∀ text fault left, x.result text = (.error fault, left) → left = text

theorem keeps_ofExcept (x : Except Fault α) : (ofExcept x).Keeps := fun _ => rfl

theorem keeps_ofLogged (x : Logged α) : (ofLogged x).Keeps := fun _ => rfl

theorem keeps_get : Keeps get := fun _ => rfl

theorem keepsOnFault_pure (a : α) : (pure a : Attempt α).KeepsOnFault := by
  intro text fault left h
  cases h

/-- What keeps the text on a fault may come behind any stage that keeps it. -/
theorem Keeps.bind {x : Attempt α} {f : α → Attempt β} (hx : x.Keeps)
    (hf : ∀ a, (f a).KeepsOnFault) : (x >>= f).KeepsOnFault := by
  intro text fault left h
  have hkept := hx text
  rcases result_bind_eq_error_iff.mp h with hfirst | ⟨a, between, hfirst, hsecond⟩
  · rwa [hfirst] at hkept
  · rw [hfirst] at hkept
    rw [hf a between fault left hsecond]
    exact hkept

end Attempt

namespace Resolution

variable {text html left : String} {registry : Registry} {fault : Fault}

theorem value_substitute? (all : List Replacement) (text : String) :
    (substitute? all text).value = Substitution.replace? all text := by
  unfold substitute?
  cases Substitution.replace? all text with
  | some result => rfl
  | none => rfl

/-- The last stage cannot fail. -/
theorem result_substitute (all : List Replacement) (text : String) :
    (substitute all).result text = (.ok (), (Substitution.replace? all text).getD text) := by
  unfold substitute
  simp only [Attempt.result_bind, Attempt.result_get, Attempt.result_ofLogged, value_substitute?]
  cases Substitution.replace? all text with
  | some result => rfl
  | none => rfl

/-- The text is changed by the last stage alone, which does not fail, and all stages
before it keep the text. -/
theorem keepsOnFault_run (registry : Registry) : (run registry).KeepsOnFault := by
  refine Attempt.keeps_get.bind fun text => ?_
  refine (Attempt.keeps_ofLogged _).bind fun placed => ?_
  refine (Attempt.keeps_ofExcept _).bind fun _ => ?_
  split
  · exact Attempt.keepsOnFault_pure ()
  · refine (Attempt.keeps_ofExcept _).bind fun markers => ?_
    refine (Attempt.keeps_ofLogged _).bind fun walked => ?_
    refine (Attempt.keeps_ofExcept _).bind fun _ => ?_
    refine (Attempt.keeps_ofLogged _).bind fun planned => ?_
    refine (Attempt.keeps_ofExcept _).bind fun all => ?_
    intro text fault left h
    rw [result_substitute] at h
    cases h

/-- What the stages come to, one after another. -/
theorem value_revise_eq_result (text : String) (registry : Registry) :
    (revise text registry).value =
      ⟨((run registry).result text).2, ((run registry).result text).1⟩ := by
  unfold revise Attempt.result
  rcases (ExceptT.run (run registry)).run text with ⟨⟨outcome, left⟩, records⟩
  cases outcome with
  | ok _ => rfl
  | error fault => rfl

/-- The finished text is what the stages leave, if all of them succeed. -/
theorem value_resolve_eq_result (text : String) (registry : Registry) :
    (resolve text registry).value =
      ((run registry).result text).1.map fun _ => ((run registry).result text).2 := by
  show (revise text registry).value.outcome.map (fun _ => (revise text registry).value.text) = _
  rw [value_revise_eq_result]

theorem value_resolve_eq_ok_iff : (resolve text registry).value = .ok html ↔
    (run registry).result text = (.ok (), html) := by
  rw [value_resolve_eq_result]
  rcases (run registry).result text with ⟨outcome, left⟩
  cases outcome with
  | ok _ => simp [Except.map]
  | error fault => simp [Except.map]

theorem value_resolve_eq_error_iff : (resolve text registry).value = .error fault ↔
    (run registry).result text = (.error fault, text) := by
  rw [value_resolve_eq_result]
  rcases hresult : (run registry).result text with ⟨outcome, left⟩
  cases outcome with
  | ok _ => simp [Except.map]
  | error fault' =>
    obtain rfl := keepsOnFault_run registry text fault' left hresult
    simp [Except.map]

/-- A resolution succeeds when all of its stages do. An empty registry ends it
after the first. -/
theorem resolve_eq_ok_iff {text html : String} {registry : Registry} :
    (resolve text registry).value = .ok html ↔
      ∃ locations, (Placement.place text registry).value.outcome = .ok locations ∧
        if (Placement.place text registry).value.registry.isEmpty then text = html
        else ∃ markers, (Placement.place text registry).value.registry.sorted = .ok markers ∧
          (Nesting.walk markers).value.outcome = .ok () ∧
          ∃ all, (replacements (Nesting.walk markers).value.markers).value = .ok all ∧
            (Substitution.replace? all text).getD text = html := by
  rw [value_resolve_eq_ok_iff]
  unfold run
  simp only [Attempt.result_bind_eq_ok_iff, Attempt.result_get, Attempt.result_ofLogged,
    Attempt.result_ofExcept, Prod.mk.injEq, Except.ok.injEq, and_assoc, exists_and_left,
    exists_eq_left']
  refine exists_congr fun locations => and_congr_right fun _ => ?_
  split
  · simp only [Attempt.result_pure, Prod.mk.injEq, true_and]
  · simp only [Attempt.result_bind_eq_ok_iff, Attempt.result_ofLogged, Attempt.result_ofExcept,
      result_substitute, Prod.mk.injEq, Except.ok.injEq, true_and, and_assoc, exists_and_left,
      exists_eq_left']
    refine exists_congr fun markers => and_congr_right fun _ => ?_
    exact ⟨fun ⟨(), h⟩ => h, fun h => ⟨(), h⟩⟩

/-- A resolution that goes through all of its stages. -/
theorem resolve_eq_ok {text html : String} {registry : Registry} {ls : List Location}
    {markers : List Marker} {all : List Replacement}
    (hplaced : (Placement.place text registry).value.outcome = .ok ls)
    (hnonempty : (Placement.place text registry).value.registry.isEmpty = false)
    (hsorted : (Placement.place text registry).value.registry.sorted = .ok markers)
    (haccepted : (Nesting.walk markers).value.outcome = .ok ())
    (hall : (replacements (Nesting.walk markers).value.markers).value = .ok all)
    (hresult : Substitution.replace? all text = some html) :
    (resolve text registry).value = .ok html := by
  refine resolve_eq_ok_iff.mpr ⟨ls, hplaced, ?_⟩
  rw [if_neg (by simp [hnonempty])]
  exact ⟨markers, hsorted, haccepted, all, hall, by rw [hresult, Option.getD_some]⟩

/-- A resolution fails at one of its stages, when those before it have succeeded. -/
theorem resolve_eq_error_iff {text : String} {registry : Registry} {fault : Fault} :
    (resolve text registry).value = .error fault ↔
      (Placement.place text registry).value.outcome = .error fault ∨
      ∃ locations, (Placement.place text registry).value.outcome = .ok locations ∧
        (Placement.place text registry).value.registry.isEmpty = false ∧
        ((Placement.place text registry).value.registry.sorted = .error fault ∨
        ∃ markers, (Placement.place text registry).value.registry.sorted = .ok markers ∧
          ((Nesting.walk markers).value.outcome = .error fault ∨
          (Nesting.walk markers).value.outcome = .ok () ∧
            (replacements (Nesting.walk markers).value.markers).value = .error fault)) := by
  rw [value_resolve_eq_error_iff]
  unfold run
  simp only [Attempt.result_bind_eq_error_iff, Attempt.result_get, Attempt.result_ofLogged,
    Attempt.result_ofExcept, Prod.mk.injEq, Except.ok.injEq, and_assoc, exists_and_left,
    exists_eq_left', reduceCtorEq, false_and, false_or, and_true]
  refine or_congr_right (exists_congr fun locations => and_congr_right fun _ => ?_)
  cases (Placement.place text registry).value.registry.isEmpty with
  | true => simp [Attempt.result_pure]
  | false =>
    simp only [Bool.false_eq_true, if_false, true_and, Attempt.result_bind_eq_error_iff,
      Attempt.result_ofLogged, Attempt.result_ofExcept, result_substitute, Prod.mk.injEq,
      Except.ok.injEq, and_assoc, exists_and_left, exists_eq_left', reduceCtorEq, false_and,
      false_or, and_false, exists_false, or_false, and_true]
    refine or_congr_right (exists_congr fun markers => and_congr_right fun _ => ?_)
    exact or_congr_right ⟨fun ⟨(), h⟩ => h, fun h => ⟨(), h⟩⟩

end Resolution

end DeferredMarkup
