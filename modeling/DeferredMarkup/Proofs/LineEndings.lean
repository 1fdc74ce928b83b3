import DeferredMarkup.Page
import DeferredMarkup.Proofs.Occurrences

/-!
Line endings turned back into newlines. Going through converted text from left
to right, each line ending that was put in is met at its first character, unless
one has begun before it at a character that was kept. That cannot happen when
the first character of the line ending is nowhere in the text. Nor can it happen
with a carriage return and a newline, since no newline is left that a carriage
return of the text could stand before.
-/
namespace DeferredMarkup.Page

open Occurrence

variable {ending text rest : List Char} {c : Char}

/-- A text with a line ending in the place of every newline. -/
def converted (ending text : List Char) : List Char :=
  text.flatMap fun c => if c = '\n' then ending else [c]

@[simp] theorem converted_nil (ending : List Char) : converted ending [] = [] := rfl

theorem converted_newline (ending rest : List Char) :
    converted ending ('\n' :: rest) = ending ++ converted ending rest := by
  rw [converted, List.flatMap_cons, if_pos rfl, converted]

theorem converted_cons (hc : c ≠ '\n') (rest : List Char) :
    converted ending (c :: rest) = c :: converted ending rest := by
  rw [converted, List.flatMap_cons, if_neg hc, converted, List.singleton_append]

/-- The newline as a line ending changes nothing. -/
theorem converted_to_newline (text : List Char) : converted ['\n'] text = text := by
  induction text with
  | nil => rfl
  | cons c rest ih =>
    by_cases hc : c = '\n'
    · rw [hc, converted_newline, ih, List.singleton_append]
    · rw [converted_cons hc, ih]

/-- In the converted text no line ending begins at a character that was kept. -/
def Unmistakable (ending : List Char) : List Char → Prop
  | [] => True
  | c :: rest => (c ≠ '\n' → ¬ ending <+: c :: converted ending rest) ∧ Unmistakable ending rest

/-- A converted text is turned back exactly when its line endings are unmistakable.
The first one that is not puts a newline where another character was. -/
theorem replaceAll_converted_iff (hending : ending ≠ []) :
    replaceAll ending ['\n'] (converted ending text) = text ↔ Unmistakable ending text := by
  induction text with
  | nil => exact ⟨fun _ => trivial, fun _ => rfl⟩
  | cons c rest ih =>
    by_cases hc : c = '\n'
    · rw [hc, converted_newline, replaceAll_word hending, List.singleton_append,
        List.cons.injEq, ih]
      exact ⟨fun h => ⟨fun hne => absurd rfl hne, h.2⟩, fun h => ⟨rfl, h.2⟩⟩
    · rw [converted_cons hc]
      by_cases hbegins : ending <+: c :: converted ending rest
      · refine iff_of_false ?_ fun h => h.1 hc hbegins
        obtain ⟨after, hafter⟩ := hbegins
        rw [← hafter, replaceAll_word hending, List.singleton_append, List.cons.injEq]
        exact fun h => hc h.1.symm
      · rw [replaceAll_cons hbegins, List.cons.injEq, ih]
        exact ⟨fun h => ⟨fun _ => hbegins, h.2⟩, fun h => ⟨rfl, h.2⟩⟩

/-- A line ending that was in the text already is taken for a newline. -/
example : replaceAll "<br>".toList ['\n'] (converted "<br>".toList "a<br>".toList) =
    "a\n".toList := by
  decide

/-- A line ending whose first character is not in the text begins at none of it. -/
theorem unmistakable_of_notMem {tail : List Char} (h : c ∉ text) :
    Unmistakable (c :: tail) text := by
  induction text with
  | nil => trivial
  | cons d rest ih =>
    rw [List.mem_cons, not_or] at h
    refine ⟨fun _ hbegins => ?_, ih h.2⟩
    exact h.1 (List.cons_prefix_cons.mp hbegins).1

/-- Where every newline has become a carriage return and a newline, the carriage
returns of the text stand before no newline. -/
theorem unmistakable_crlf (text : List Char) : Unmistakable ['\r', '\n'] text := by
  induction text with
  | nil => trivial
  | cons c rest ih =>
    refine ⟨fun _ hbegins => ?_, ih⟩
    have hnewline := (List.cons_prefix_cons.mp hbegins).2
    cases rest with
    | nil => simp at hnewline
    | cons d rest =>
      by_cases hd : d = '\n'
      · rw [hd, converted_newline, List.cons_append, List.cons_prefix_cons] at hnewline
        exact absurd hnewline.1 (by decide)
      · rw [converted_cons hd, List.cons_prefix_cons] at hnewline
        exact hd hnewline.1.symm

theorem toList_withLineEnding {ending : String} (hending : ending ≠ "") (text : String) :
    (withLineEnding ending text).toList = converted ending.toList text.toList := by
  unfold withLineEnding
  split
  next h =>
    obtain rfl := h.resolve_left hending
    exact (converted_to_newline text.toList).symm
  next => exact String.toList_ofList

/-- The line endings of a text are those of its parts. -/
theorem withLineEnding_append (ending front back : String) :
    withLineEnding ending (front ++ back) =
      withLineEnding ending front ++ withLineEnding ending back := by
  by_cases hending : ending = ""
  · simp only [withLineEnding, hending, true_or, if_true]
  · rw [← String.toList_inj, String.toList_append, toList_withLineEnding hending,
      toList_withLineEnding hending, toList_withLineEnding hending, String.toList_append,
      converted, List.flatMap_append, converted, converted]

/-- A fragment with the line endings of its settings is turned back into what it
was by replacing each of them, from left to right, with a newline. This holds of
every text when they are a carriage return and a newline, and otherwise of any
line ending but the empty one and every text in which its first character does
not stand. A text may be converted part by part, whatever the line ending. -/
theorem line_endings_restored (ending text : String) :
    (ending = "\r\n" ∨ (∃ c tail, ending.toList = c :: tail ∧ c ∉ text.toList) →
      ∀ s : Settings, s.lineEnding = ending →
        String.ofList (replaceAll ending.toList ['\n'] (ofFragment text s).value.toList) = text) ∧
    ∀ front back, withLineEnding ending (front ++ back) =
      withLineEnding ending front ++ withLineEnding ending back := by
  refine ⟨?_, withLineEnding_append ending⟩
  rintro h s rfl
  have hunmistakable : s.lineEnding.toList ≠ [] ∧
      Unmistakable s.lineEnding.toList text.toList := by
    rcases h with h | ⟨c, tail, h, hc⟩
    · rw [h]
      exact ⟨by decide, unmistakable_crlf text.toList⟩
    · rw [h]
      exact ⟨List.cons_ne_nil c tail, unmistakable_of_notMem hc⟩
  obtain ⟨hne, hunmistakable⟩ := hunmistakable
  have hending : s.lineEnding ≠ "" := fun h => hne (by rw [h]; rfl)
  show String.ofList (replaceAll _ _ (withLineEnding s.lineEnding text).toList) = text
  rw [toList_withLineEnding hending, (replaceAll_converted_iff hne).mpr hunmistakable,
    String.ofList_toList]

/-- Carriage returns before newlines, and a line ending with a newline in it that
begins in the way it ends. -/
theorem line_endings_restored_returns :
    String.ofList (replaceAll "\r\n".toList ['\n']
        (ofFragment "a\r\n\r\r\n\r" ⟨["a.css"], none, "\r\n"⟩).value.toList) = "a\r\n\r\r\n\r" ∧
      (∃ c tail, "|\n|".toList = c :: tail ∧ c ∉ "a\n\nb".toList) ∧
      (ofFragment "a\n\nb" ⟨[], none, "|\n|"⟩).value = "a|\n||\n|b" ∧
      String.ofList (replaceAll "|\n|".toList ['\n']
        (ofFragment "a\n\nb" ⟨[], none, "|\n|"⟩).value.toList) = "a\n\nb" := by
  have hfirst : ∃ c tail, "|\n|".toList = c :: tail ∧ c ∉ "a\n\nb".toList :=
    ⟨'|', ['\n', '|'], by decide, by decide⟩
  exact ⟨(line_endings_restored "\r\n" _).1 (Or.inl rfl) _ rfl, hfirst, by decide,
    (line_endings_restored "|\n|" _).1 (Or.inr hfirst) _ rfl⟩

end DeferredMarkup.Page
