import Mathlib.Data.List.TakeWhile
import TypeExpr.Text.Blank

/-!
# Parts of a text

Two ways to tell a part of a text from what stands around it.

* **By what cannot be in it.** A part without certain characters ends at the first of them, so a
  text has only one such part at its front (`Text.append_inj_of_stops`).
* **By what cannot be at its ends.** The *core* of a text begins and ends with a character that is
  not white space, and there is nothing but white space around it (`Text.IsCore`). A text has a core
  if there is anything on it, and then the core is what is left if the white space at the ends is
  taken away (`Text.isCore_iff`).

The second is about both ends, and taking white space away is done at the front only, of the text
and of what is left of it read backwards. So the lemmas for it speak of the front.
-/

namespace TypeExpr.Text

/-! ### A part ends where something stands that is not in it -/

section Stops

variable {α : Type} (Stops : α → Prop)

/-- A stop cannot continue a part without stops. -/
theorem eq_nil_of_head?_append {xs rest : List α} (hxs : ∀ x ∈ xs, ¬Stops x)
    (h : ∀ x ∈ (xs ++ rest).head?, Stops x) : xs = [] := by
  cases xs with
  | nil => rfl
  | cons x xs => exact absurd (h x rfl) (hxs x List.mem_cons_self)

/-- **A part without stops ends at the first stop**, and if there is none, at the end. -/
theorem append_inj_of_stops {xs ys rs ss : List α} (hxs : ∀ x ∈ xs, ¬Stops x)
    (hys : ∀ y ∈ ys, ¬Stops y) (hrs : ∀ r ∈ rs.head?, Stops r) (hss : ∀ s ∈ ss.head?, Stops s)
    (h : xs ++ rs = ys ++ ss) : xs = ys ∧ rs = ss := by
  -- what one part has more than the other would begin with the stop behind the other
  rcases List.append_eq_append_iff.mp h with ⟨more, rfl, rfl⟩ | ⟨more, rfl, rfl⟩
  · obtain rfl := eq_nil_of_head?_append Stops
      (fun x hx => hys x (List.mem_append_right _ hx)) hrs
    exact ⟨(List.append_nil _).symm, rfl⟩
  · obtain rfl := eq_nil_of_head?_append Stops
      (fun x hx => hxs x (List.mem_append_right _ hx)) hss
    exact ⟨List.append_nil _, rfl⟩

end Stops

/-! ### White space at the front -/

section Front

variable {cs ds : List Char}

/-- Nothing but white space is taken away from the front. -/
theorem exists_append_trimFront (cs : List Char) :
    ∃ front, cs = front ++ trimFront cs ∧ ∀ c ∈ front, isBlank c = true :=
  ⟨cs.takeWhile isBlank, List.takeWhile_append_dropWhile.symm, fun _ hc => List.mem_takeWhile_imp hc⟩

/-- All white space is taken away from the front. -/
theorem trimFront_append (hcs : ∀ c ∈ cs, isBlank c = true)
    (hds : ∃ d ∈ ds.head?, isBlank d = false) : trimFront (cs ++ ds) = ds := by
  rw [trimFront, List.dropWhile_append_of_pos hcs]
  obtain ⟨d, hd, hblank⟩ := hds
  obtain ⟨ds, rfl⟩ := List.head?_eq_some_iff.mp hd
  exact List.dropWhile_cons_of_neg (by simp [hblank])

theorem trimFront_eq_nil_iff : trimFront cs = [] ↔ ∀ c ∈ cs, isBlank c = true :=
  List.dropWhile_eq_nil_iff

/-- What is left begins with something else, if there is anything else. -/
theorem head?_trimFront (h : ∃ c ∈ cs, isBlank c = false) :
    ∃ d ∈ (trimFront cs).head?, isBlank d = false := by
  have hhead := List.head?_dropWhile_not isBlank cs
  cases hleft : trimFront cs with
  | nil =>
    obtain ⟨c, hc, hblank⟩ := h
    rw [trimFront_eq_nil_iff.mp hleft c hc] at hblank
    cases hblank
  | cons d ds =>
    rw [trimFront] at hleft
    rw [hleft] at hhead
    exact ⟨d, rfl, hhead⟩

/-- A character that is not white space is not taken away. -/
theorem mem_trimFront {c : Char} (hc : c ∈ cs) (hblank : isBlank c = false) : c ∈ trimFront cs := by
  obtain ⟨front, hfront, hwhite⟩ := exists_append_trimFront cs
  rw [hfront] at hc
  refine (List.mem_append.mp hc).resolve_left fun hmem => ?_
  rw [hwhite c hmem] at hblank
  cases hblank

end Front

/-! ### The core of a text -/

/-- **The core of a text**: it begins and ends with a character that is not white space, and around
it there is nothing but white space. -/
structure IsCore (source core : List Char) : Prop where
  first : ∃ c ∈ core.head?, isBlank c = false
  last : ∃ c ∈ core.getLast?, isBlank c = false
  around : ∃ front back, source = front ++ core ++ back ∧ (∀ c ∈ front, isBlank c = true) ∧
    ∀ c ∈ back, isBlank c = true

section Core

variable {source core : List Char}

/-- The core is what is left if white space is taken away from both ends. -/
theorem IsCore.eq_trimFront (h : IsCore source core) :
    core = (trimFront (trimFront source).reverse).reverse := by
  obtain ⟨⟨c, hc, hfirst⟩, hlast, front, back, rfl, hfront, hback⟩ := h
  have hhead : ∃ d ∈ (core ++ back).head?, isBlank d = false := by
    obtain ⟨rest, rfl⟩ := List.head?_eq_some_iff.mp hc
    exact ⟨c, rfl, hfirst⟩
  rw [← List.head?_reverse] at hlast
  rw [List.append_assoc, trimFront_append hfront hhead, List.reverse_append,
    trimFront_append (fun c hc => hback c (List.mem_reverse.mp hc)) hlast, List.reverse_reverse]

/-- **What is left is a core**, if there is anything left. -/
theorem isCore_trimFront (h : ∃ c ∈ source, isBlank c = false) :
    IsCore source (trimFront (trimFront source).reverse).reverse := by
  obtain ⟨front, hfront, hwhite⟩ := exists_append_trimFront source
  obtain ⟨back, hback, hwhite'⟩ := exists_append_trimFront (trimFront source).reverse
  have hsplit : trimFront source =
      (trimFront (trimFront source).reverse).reverse ++ back.reverse := by
    rw [← List.reverse_append, ← hback, List.reverse_reverse]
  obtain ⟨c, hc, hblank⟩ := h
  have hlast := head?_trimFront ⟨c, List.mem_reverse.mpr (mem_trimFront hc hblank), hblank⟩
  refine ⟨?_, by rwa [List.getLast?_reverse], front, back.reverse, ?_, hwhite,
    fun c hc => hwhite' c (List.mem_reverse.mp hc)⟩
  · -- the core is not empty, so it begins with what the text without its front begins with
    obtain ⟨d, hd, hfirst⟩ := head?_trimFront ⟨c, hc, hblank⟩
    rw [hsplit] at hd
    cases hcore : (trimFront (trimFront source).reverse).reverse with
    | nil =>
      obtain ⟨e, he, -⟩ := hlast
      rw [List.reverse_eq_nil_iff.mp hcore] at he
      cases he
    | cons e es =>
      rw [hcore] at hd
      exact ⟨d, hd, hfirst⟩
  · rw [List.append_assoc, ← hsplit, ← hfront]

end Core

/-- **A text has one core**, the text without the white space at its ends, and has it if there is
anything but white space on it. -/
theorem isCore_iff {source core : String} :
    IsCore source.toList core.toList ↔
      (∃ c ∈ source.toList, isBlank c = false) ∧ core = trim source := by
  constructor
  · intro h
    refine ⟨?_, ?_⟩
    · obtain ⟨⟨c, hc, hblank⟩, -, front, back, hsource, -, -⟩ := h
      refine ⟨c, ?_, hblank⟩
      rw [hsource, List.append_assoc]
      exact List.mem_append_right _ (List.mem_append_left _ (List.mem_of_mem_head? hc))
    · rw [trim, ← h.eq_trimFront, String.ofList_toList]
  · rintro ⟨hblank, rfl⟩
    rw [trim, String.toList_ofList]
    exact isCore_trimFront hblank

/-- A text without anything but white space has no core, and nothing is left of it. -/
theorem trim_eq_empty {source : String} (h : ∀ c ∈ source.toList, isBlank c = true) :
    trim source = "" := by
  rw [trim, trimFront_eq_nil_iff.mpr h]
  rfl

end TypeExpr.Text
