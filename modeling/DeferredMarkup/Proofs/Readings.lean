import DeferredMarkup.Proofs.Digits

/-!
What is read behind a sentinel. Four bytes that are the digits of an id are read
as that id. Others are shown as the characters they hold, and where the last of
them cuts a character, the replacement character stands for it.
-/
namespace DeferredMarkup.Marking

/-- The characters of the first bytes of a text, which are either whole or end in
one that is cut. -/
inductive Window (n : Nat) (cs : List Char) : List Char → Prop
  | whole (front back : List Char) (split : cs = front ++ back)
      (size : String.utf8Len front = n) : Window n cs front
  | cut (front back : List Char) (c : Char) (split : cs = front ++ c :: back)
      (fits : String.utf8Len front < n) (past : n < String.utf8Len front + c.utf8Size) :
      Window n cs (front ++ ['\ufffd'])

variable {cs rest window digits : List Char} {n : Nat} {id : MarkerId}

theorem window?_cons (hn : 0 < n) (c : Char) (rest : List Char) : window? n (c :: rest) =
    if c.utf8Size ≤ n then (window? (n - c.utf8Size) rest).map (c :: ·) else some ['\ufffd'] := by
  cases n with
  | zero => exact absurd hn (Nat.lt_irrefl 0)
  | succ n => rfl

theorem Window.of_window? (h : window? n cs = some window) : Window n cs window := by
  induction cs generalizing n window with
  | nil =>
    cases n with
    | zero =>
      cases h
      exact .whole [] [] rfl rfl
    | succ n => cases h
  | cons c cs ih =>
    by_cases hn : 0 < n
    · rw [window?_cons hn] at h
      split at h
      next hfits =>
        obtain ⟨window, hwindow, rfl⟩ := Option.map_eq_some_iff.mp h
        cases ih hwindow with
        | whole front back split size =>
          refine .whole (c :: window) back (by rw [split]; rfl) ?_
          rw [String.utf8Len_cons]
          omega
        | cut front back c' split fits past =>
          refine .cut (c :: front) back c' (by rw [split]; rfl) ?_ ?_
          · rw [String.utf8Len_cons]
            omega
          · rw [String.utf8Len_cons]
            omega
      next hover =>
        cases h
        exact .cut [] cs c rfl hn (by rw [String.utf8Len_nil]; omega)
    · obtain rfl : n = 0 := by omega
      cases h
      exact .whole [] (c :: cs) rfl rfl

/-- The characters that fit are taken over one by one. -/
theorem window?_append {front : List Char} (hfits : String.utf8Len front ≤ n)
    (rest : List Char) : window? n (front ++ rest) =
      (window? (n - String.utf8Len front) rest).map (front ++ ·) := by
  induction front generalizing n with
  | nil => simp
  | cons c front ih =>
    rw [String.utf8Len_cons] at hfits ⊢
    have hpos := c.utf8Size_pos
    rw [List.cons_append, window?_cons (by omega), if_pos (by omega), ih (by omega),
      Option.map_map, Nat.sub_sub, Nat.add_comm c.utf8Size]
    rfl

theorem window?_eq_some_iff : window? n cs = some window ↔ Window n cs window := by
  constructor
  · exact Window.of_window?
  · intro h
    cases h with
    | whole front back split size =>
      subst split size
      rw [window?_append (Nat.le_refl _), Nat.sub_self, window?, Option.map_some, List.append_nil]
    | cut front back c split fits past =>
      subst split
      rw [window?_append (Nat.le_of_lt fits), window?_cons (by omega), if_neg (by omega)]
      rfl

/-- A text has no window when it holds too few bytes. -/
theorem window?_eq_none_iff : window? n cs = none ↔ String.utf8Len cs < n := by
  constructor
  · intro h
    induction cs generalizing n with
    | nil =>
      cases n with
      | zero => cases h
      | succ n => exact Nat.succ_pos n
    | cons c cs ih =>
      by_cases hn : 0 < n
      · rw [window?_cons hn] at h
        split at h
        · have := ih (Option.map_eq_none_iff.mp h)
          rw [String.utf8Len_cons]
          omega
        · cases h
      · obtain rfl : n = 0 := by omega
        cases h
  · intro h
    have happend := window?_append (Nat.le_of_lt h) []
    obtain ⟨k, hk⟩ : ∃ k, n - String.utf8Len cs = k + 1 := ⟨n - String.utf8Len cs - 1, by omega⟩
    rw [List.append_nil, hk] at happend
    exact happend

theorem read_digits (h : digits.map Char.toUpper = id.hex) (rest : List Char) :
    read (digits ++ rest) = .id id := by
  have hlen := MarkerId.utf8Len_digits h
  have hwindow : window? 4 (digits ++ rest) = some digits :=
    window?_eq_some_iff.mpr (.whole digits rest rfl hlen)
  simp only [read, hwindow, MarkerId.ofHex?_eq_some_iff.mpr h]

/-- An id is read where its digits follow. -/
theorem read_eq_id_iff : read cs = .id id ↔
    ∃ digits rest, cs = digits ++ rest ∧ digits.map Char.toUpper = id.hex := by
  constructor
  · intro h
    unfold read at h
    split at h
    next => cases h
    next window hwindow =>
      split at h
      next id' hid =>
        cases h
        have hdigits := MarkerId.ofHex?_eq_some_iff.mp hid
        cases window?_eq_some_iff.mp hwindow with
        | whole _ rest hsplit _ => exact ⟨window, rest, hsplit, hdigits⟩
        | cut front _ _ _ _ _ =>
          have hone := ((MarkerId.spelling hdigits).2 '\ufffd' (by simp)).1
          cases hone
      next => cases h
  · rintro ⟨digits, rest, rfl, hdigits⟩
    exact read_digits hdigits rest

theorem read_eq_truncated_iff : read cs = .truncated ↔ String.utf8Len cs < 4 := by
  rw [← window?_eq_none_iff, read]
  cases window? 4 cs with
  | none => simp
  | some window =>
    dsimp only
    cases MarkerId.ofHex? window <;> simp

/-- Four bytes are shown where they are no id. -/
theorem read_eq_malformed_iff {shown : String} : read cs = .malformed shown ↔
    Window 4 cs shown.toList ∧ ∀ id, read cs ≠ .id id := by
  rw [← window?_eq_some_iff, read]
  cases window? 4 cs with
  | none => simp
  | some window =>
    dsimp only
    cases MarkerId.ofHex? window with
    | none =>
      have hdigits : String.ofList window = shown ↔ window = shown.toList := by
        rw [← String.toList_inj, String.toList_ofList]
      simp [hdigits]
    | some id => simp

end DeferredMarkup.Marking
