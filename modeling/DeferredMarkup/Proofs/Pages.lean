import DeferredMarkup.Page
import DeferredMarkup.Proofs.Filling

/-!
Pages against their templates. A page is made by four passes, and each of them
sees what those before have put in. It is the template filled at once unless a
point comes up whose turn is still to come. A fragment that holds the second
spelling of the content point is one way in which this happens: it is then put
into itself, where the first spelling would have been left alone.
-/
namespace DeferredMarkup

open Filling Occurrence

namespace Page

variable {points : List String} {inserted text : String}

/-- What is put in for each spelling of a point. -/
def insertionsFor (points : List String) (inserted : String) : List Insertion :=
  points.map fun point => ⟨point.toList, inserted.toList⟩

theorem fill_eq (points : List String) (inserted text : String) :
    fill points inserted text =
      String.ofList (fillInTurn (insertionsFor points inserted) text.toList) := by
  induction points generalizing text with
  | nil => exact String.ofList_toList.symm
  | cons point points ih =>
    rw [fill, List.foldl_cons, ← fill, ih, String.toList_ofList]
    rfl

/-- A text without points is left alone. -/
theorem fill_of_not_hasPoint (h : hasPoint points text = false) :
    fill points inserted text = text := by
  induction points with
  | nil => rfl
  | cons point points ih =>
    rw [hasPoint, List.any_cons, Bool.or_eq_false_iff] at h
    have hnot : ¬ point.toList <:+: text.toList := by
      rw [← occurs_iff, h.1]
      exact Bool.false_ne_true
    rw [fill, List.foldl_cons, ← fill, replaceAll_of_not_occurring hnot, String.ofList_toList]
    exact ih h.2

theorem anchored_of_mem {point : String} (h : point ∈ headersPoints ++ contentPoints) :
    Anchored point.toList := by
  have hall : ∀ point ∈ headersPoints ++ contentPoints,
      point.toList = '$' :: point.toList.tail ∧ '$' ∉ point.toList.tail := by decide
  exact ⟨_, hall point h⟩

/-- No spelling of a point begins another. -/
theorem pairwise_unlike : ((headersPoints ++ contentPoints).map String.toList).Pairwise
    fun a b => ¬ a <+: b ∧ ¬ b <+: a := by decide

end Page

namespace Template

variable {t : Template} {fragment : String} {s : Page.Settings}

/-- What is put in for the points of a template, in the order of the passes. -/
def insertions (fragment : String) (s : Page.Settings) : List Insertion :=
  Page.insertionsFor Page.headersPoints (Page.headers s) ++
    Page.insertionsFor Page.contentPoints fragment

/-- The template with all its points filled, in one pass over the template alone. -/
def filledAtOnce (t : Template) (fragment : String) (s : Page.Settings) : String :=
  String.ofList (fillAtOnce (insertions fragment s) t.text.toList)

theorem apart_insertions (fragment : String) (s : Page.Settings) :
    Apart (insertions fragment s) := by
  have hpoints : (insertions fragment s).map (·.point) =
      (Page.headersPoints ++ Page.contentPoints).map String.toList := rfl
  refine ⟨?_, ?_⟩
  · intro i hi
    obtain ⟨point, hpoint, heq⟩ := List.mem_map.mp (hpoints ▸ List.mem_map_of_mem hi)
    exact heq ▸ Page.anchored_of_mem hpoint
  · have hall := Page.pairwise_unlike
    rw [← hpoints, List.pairwise_map] at hall
    exact hall

/-- A template without headers points has nothing put in for them. -/
theorem withHeaders_eq {text : String} (h : t.withHeaders s = .ok text) :
    text = Page.fill Page.headersPoints (Page.headers s) t.text := by
  unfold withHeaders at h
  split at h
  · exact (Except.ok.inj h).symm
  next hnone =>
    rw [Bool.not_eq_true] at hnone
    rw [Page.fill_of_not_hasPoint hnone]
    split at h
    · cases h
    · exact (Except.ok.inj h).symm

/-- The page is what four passes over the template come to. -/
theorem render_eq {page : String} (hending : s.lineEnding = "\n")
    (h : t.render fragment s = .ok page) :
    page = String.ofList (fillInTurn (insertions fragment s) t.text.toList) := by
  unfold render at h
  cases htext : t.withHeaders s with
  | error fault =>
    rw [htext] at h
    cases h
  | ok text =>
    rw [htext] at h
    have hpage : page = Page.withLineEnding s.lineEnding
        (Page.fill Page.contentPoints fragment text) := (Except.ok.inj h).symm
    have hplain : page = Page.fill Page.contentPoints fragment text :=
      hpage.trans (if_pos (Or.inr hending))
    rw [hplain, withHeaders_eq htext, Page.fill_eq, Page.fill_eq, String.toList_ofList,
      fillInTurn, fillInTurn, fillInTurn, insertions, List.foldl_append]

/-- No spelling comes up again when the header lines, where there is a point for
them, are inert for all spellings but the first, and the fragment for the last. -/
theorem settled_of_inert
    (hheaders : Page.hasPoint Page.headersPoints t.text →
      ∀ point ∈ ["$(!pageHeaders)", "$(pageContent)", "$(!pageContent)"],
        Inert point.toList (Page.headers s).toList)
    (hfragment : Inert "$(!pageContent)".toList fragment.toList) :
    Settled (insertions fragment s) t.text.toList := by
  have hpoint : ∀ point ∈ Page.headersPoints, count point.toList t.text.toList ≠ 0 →
      Page.hasPoint Page.headersPoints t.text := by
    intro point hpoint hcount
    by_contra hnone
    rw [Page.hasPoint, List.any_eq_true, not_exists] at hnone
    have hoccurs := hnone point
    rw [not_and, Bool.not_eq_true] at hoccurs
    exact hcount (count_eq_zero_of_not_occurs (hoccurs hpoint))
  have hlater : ∀ i ∈ (insertions fragment s).tail,
      Page.hasPoint Page.headersPoints t.text → Inert i.point (Page.headers s).toList := by
    intro i hi hany
    have hmem : i.point ∈ ["$(!pageHeaders)", "$(pageContent)", "$(!pageContent)"].map
        String.toList := List.mem_map_of_mem (f := Insertion.point) hi
    obtain ⟨point, hpoint, heq⟩ := List.mem_map.mp hmem
    exact heq ▸ hheaders hany point hpoint
  apply Filling.settled_of_inert (apart_insertions fragment s)
  refine .cons ?_ (.cons ?_ (.cons ?_ (.cons ?_ .nil)))
  · intro i hi hcount
    exact hlater i hi (hpoint "$(pageHeaders)" (by simp [Page.headersPoints]) hcount)
  · intro i hi hcount
    exact hlater i (List.mem_cons_of_mem _ hi)
      (hpoint "$(!pageHeaders)" (by simp [Page.headersPoints]) hcount)
  · intro i hi _
    obtain rfl := List.mem_singleton.mp hi
    exact hfragment
  · intro i hi
    exact absurd hi List.not_mem_nil

/-- The page is the template filled at once, with inserted text as it is, when no
spelling of a point comes up whose turn is still to come. -/
theorem render_fills_at_once (t : Template) (fragment : String) (s : Page.Settings)
    (hending : s.lineEnding = "\n") (page : String) (h : t.render fragment s = .ok page)
    (hsettled : Settled (insertions fragment s) t.text.toList) :
    page = t.filledAtOnce fragment s := by
  rw [render_eq hending h, fillInTurn_eq (apart_insertions fragment s) hsettled]
  rfl

/-- A fragment that holds the first spelling of the content point. -/
theorem render_fills_at_once_target :
    ∃ (t : Template) (fragment : String) (s : Page.Settings) (page : String),
      t = ⟨"<head>$(pageHeaders)</head>$(pageContent)"⟩ ∧
      fragment = "<p>$(pageContent)</p>" ∧ s = ⟨[], some "_top", "\n"⟩ ∧
      page = "<head><base target=\"_top\">\n</head><p>$(pageContent)</p>" ∧
      Settled (insertions fragment s) t.text.toList ∧ t.render fragment s = .ok page ∧
      page = t.filledAtOnce fragment s := by
  let t : Template := ⟨"<head>$(pageHeaders)</head>$(pageContent)"⟩
  let s : Page.Settings := ⟨[], some "_top", "\n"⟩
  have hrender : t.render "<p>$(pageContent)</p>" s =
      .ok "<head><base target=\"_top\">\n</head><p>$(pageContent)</p>" := by cbv
  have hheaders : ∀ point ∈ ["$(!pageHeaders)", "$(pageContent)", "$(!pageContent)"],
      Inert point.toList "<base target=\"_top\">\n".toList := by
    have hpoints : ∀ point ∈ ["$(!pageHeaders)", "$(pageContent)", "$(!pageContent)"],
        '<' ∉ point.toList ∧ '\n' ∉ point.toList ∧
          count point.toList "<base target=\"_top\">\n".toList = 0 := by decide
    intro point hpoint
    obtain ⟨hfirst, hlast, hnone⟩ := hpoints point hpoint
    exact ⟨⟨'<', _, rfl, hfirst⟩, ⟨"<base target=\"_top\">".toList, '\n', rfl, hlast⟩, hnone⟩
  have hfragment : Inert "$(!pageContent)".toList "<p>$(pageContent)</p>".toList :=
    ⟨⟨'<', _, rfl, by decide⟩, ⟨"<p>$(pageContent)</p".toList, '>', rfl, by decide⟩, by decide⟩
  have hsettled : Settled (insertions "<p>$(pageContent)</p>" s) t.text.toList :=
    settled_of_inert (fun _ => hheaders) hfragment
  exact ⟨t, _, s, _, rfl, rfl, rfl, rfl, hsettled, hrender,
    render_fills_at_once t _ s rfl _ hrender hsettled⟩

/-- The second spelling of the content point is not left alone in a fragment. -/
theorem render_expands_fragment :
    ¬ ∀ (raw : String) (t : Template) (fragment : String) (s : Page.Settings) (page : String),
      Template.ofText raw = .ok t → s.lineEnding = "\n" → t.render fragment s = .ok page →
      page = t.filledAtOnce fragment s := by
  intro h
  have hpage : "aa$(!pageContent)bb" =
      (⟨"$(pageContent)"⟩ : Template).filledAtOnce "a$(!pageContent)b" {} :=
    h "$(pageContent)" _ _ _ _ rfl rfl rfl
  exact absurd hpage (by decide)

end Template

end DeferredMarkup
