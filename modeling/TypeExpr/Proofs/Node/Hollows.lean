import TypeExpr.Proofs.Json.Depth
import TypeExpr.Proofs.Node.Tree

/-!
# Callables without parameters

Nodes are made freely, so there are nodes with callables that have no parameters, although no reader
returns one and no builder makes one. Such a node has a written form like any other. This file
lists the callables without parameters of a node in the order of its text, each with the tokens in
front of it, and shows that this is where they stand: the tokens up to the end of a callable are
those the text begins with, and there are more of them for each callable further to the right.

A node is sound if the list is empty, which makes soundness decidable.
-/

namespace TypeExpr

open Json (Token)

/-- A callable without parameters somewhere in a node. -/
structure HollowCallable where
  /-- The tokens of the node that come before it. -/
  before : List Token
  base : String

namespace HollowCallable

/-- The tokens of the node up to the end of the callable. -/
def upTo (hollow : HollowCallable) : List Token :=
  hollow.before ++ (Node.applied .callable hollow.base []).toJson.tokens

/-- The same callable, with more tokens in front of it. -/
def behind (ts : List Token) (hollow : HollowCallable) : HollowCallable :=
  ⟨ts ++ hollow.before, hollow.base⟩

@[simp]
theorem upTo_behind (ts : List Token) (hollow : HollowCallable) :
    (hollow.behind ts).upTo = ts ++ hollow.upTo := by
  simp [upTo, behind]

end HollowCallable

namespace Node

/-- The tokens of an applied base up to its first parameter. -/
def opening (form : Form) (base : String) : List Token :=
  [.openObject, .text form.key, .colon, .openObject, .text "base", .colon, .text base, .comma,
    .text "params", .colon, .openArray]

mutual

/-- **The callables without parameters in a node**, from left to right. -/
def hollows : Node → List HollowCallable
  | applied form base params =>
    if form = .callable ∧ params.isEmpty then [⟨[], base⟩]
    else (hollowsOf params).map (·.behind (opening form base))
  | _ => []

/-- The callables without parameters in some parameters, from left to right. The parameters have
commas between them. -/
def hollowsOf : List Node → List HollowCallable
  | [] => []
  | param :: params =>
    param.hollows ++ (hollowsOf params).map (·.behind (param.toJson.tokens ++ [.comma]))

end

theorem hollows_callable (base : String) : hollows (applied .callable base []) = [⟨[], base⟩] := by
  simp [hollows]

theorem hollows_applied {form : Form} {base : String} {params : List Node}
    (h : form = .callable → params ≠ []) :
    hollows (applied form base params) = (hollowsOf params).map (·.behind (opening form base)) := by
  rw [hollows, if_neg]
  rintro ⟨hform, hparams⟩
  exact h hform (List.isEmpty_iff.mp hparams)

theorem hollowsOf_eq_nil_iff {params : List Node} :
    hollowsOf params = [] ↔ ∀ param ∈ params, param.hollows = [] := by
  induction params with
  | nil => simp [hollowsOf]
  | cons param params ih => simp [hollowsOf, ih]

/-- **A node is sound if it has no callable without parameters.** -/
theorem sound_iff_hollows {node : Node} : node.Sound ↔ node.hollows = [] := by
  induction node with
  | named name => exact ⟨fun _ => rfl, fun _ => .named name⟩
  | anything => exact ⟨fun _ => rfl, fun _ => .anything⟩
  | nothing => exact ⟨fun _ => rfl, fun _ => .nothing⟩
  | applied form base params ih =>
    rw [sound_applied_iff]
    by_cases hne : form = .callable → params ≠ []
    · rw [hollows_applied hne, List.map_eq_nil_iff, hollowsOf_eq_nil_iff]
      exact ⟨fun h param hparam => (ih param hparam).mp (h.2 param hparam),
        fun h => ⟨hne, fun param hparam => (ih param hparam).mpr (h param hparam)⟩⟩
    · obtain ⟨rfl, rfl⟩ : form = .callable ∧ params = [] := by simpa using hne
      simp [hollows_callable]

instance : DecidablePred Sound := fun node =>
  decidable_of_iff (node.hollows.isEmpty = true) (by rw [List.isEmpty_iff, sound_iff_hollows])

/-! ### Their places in the text -/

theorem tokens_applied_cons (form : Form) (base : String) (param : Node) (params : List Node) :
    (applied form base (param :: params)).toJson.tokens =
      opening form base ++ (param.toJson.tokens ++ (Json.itemTokens (params.map toJson) ++
        [.closeObject, .closeObject])) := by
  simp [toJson, toJsons, toJsons_eq_map, Json.tokens, Json.memberTokens, opening]

/-- The tokens of a parameter and of those behind it hold the callables listed for them. -/
theorem upTo_prefix_of_mem_hollowsOf {params : List Node}
    (h : ∀ param ∈ params, ∀ hollow ∈ param.hollows, hollow.upTo <+: param.toJson.tokens) :
    ∀ hollow ∈ hollowsOf params, ∃ param rest, params = param :: rest ∧
      hollow.upTo <+: param.toJson.tokens ++ Json.itemTokens (rest.map toJson) := by
  induction params with
  | nil => exact fun _ hmem => absurd hmem List.not_mem_nil
  | cons param params ih =>
    intro hollow hmem
    refine ⟨param, params, rfl, ?_⟩
    rcases List.mem_append.mp hmem with hmem | hmem
    · exact (h param List.mem_cons_self hollow hmem).trans (List.prefix_append _ _)
    · obtain ⟨later, hlater, rfl⟩ := List.mem_map.mp hmem
      obtain ⟨next, rest, rfl, hprefix⟩ :=
        ih (fun param hparam => h param (List.mem_cons_of_mem _ hparam)) later hlater
      rw [HollowCallable.upTo_behind, List.append_assoc, List.prefix_append_right_inj]
      exact List.cons_prefix_cons.mpr ⟨rfl, hprefix⟩

/-- **The callables listed for a node stand in its text**, each behind the tokens listed with
it. -/
theorem upTo_prefix_tokens {node : Node} :
    ∀ hollow ∈ node.hollows, hollow.upTo <+: node.toJson.tokens := by
  induction node with
  | applied form base params ih =>
    intro hollow hmem
    by_cases hne : form = .callable → params ≠ []
    · rw [hollows_applied hne] at hmem
      obtain ⟨inner, hinner, rfl⟩ := List.mem_map.mp hmem
      obtain ⟨param, rest, rfl, hprefix⟩ := upTo_prefix_of_mem_hollowsOf ih inner hinner
      rw [HollowCallable.upTo_behind, tokens_applied_cons, List.prefix_append_right_inj,
        ← List.append_assoc]
      exact hprefix.trans (List.prefix_append _ _)
    · obtain ⟨rfl, rfl⟩ : form = .callable ∧ params = [] := by simpa using hne
      rw [hollows_callable, List.mem_singleton] at hmem
      subst hmem
      exact List.prefix_rfl
  | _ => exact fun _ hmem => absurd hmem List.not_mem_nil

/-- **Each listed callable ends later in the text than those before it.** -/
theorem pairwise_hollows {node : Node} :
    node.hollows.Pairwise fun first second => first.upTo.length < second.upTo.length := by
  induction node with
  | applied form base params ih =>
    by_cases hne : form = .callable → params ≠ []
    · rw [hollows_applied hne, List.pairwise_map]
      refine List.Pairwise.imp (R := fun first second : HollowCallable =>
        first.upTo.length < second.upTo.length) (fun {_ _} hlt => by simpa using hlt) ?_
      clear hne
      induction params with
      | nil => exact .nil
      | cons param params ihs =>
        rw [hollowsOf, List.pairwise_append]
        refine ⟨ih param List.mem_cons_self, ?_, fun first hfirst second hsecond => ?_⟩
        · refine List.pairwise_map.mpr ?_
          refine List.Pairwise.imp (fun {_ _} hlt => by simpa using hlt)
            (ihs fun param hparam => ih param (List.mem_cons_of_mem _ hparam))
        · -- a callable in a later parameter has all of the earlier one in front of it
          obtain ⟨later, -, rfl⟩ := List.mem_map.mp hsecond
          have hle := (upTo_prefix_tokens first hfirst).length_le
          simp only [HollowCallable.upTo_behind, List.length_append, List.length_singleton]
          omega
    · obtain ⟨rfl, rfl⟩ : form = .callable ∧ params = [] := by simpa using hne
      rw [hollows_callable]
      exact List.pairwise_singleton _ _
  | _ => exact .nil

end Node

end TypeExpr
