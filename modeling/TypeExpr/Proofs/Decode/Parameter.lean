import TypeExpr.Decode.Parameter
import TypeExpr.Proofs.Decode.Node

/-!
# The spellings of arguments and parameters

Arguments and parameters are choices, and so are nodes, but a choice around a node has no name
of its own: the key `type` leads to the node, and the node has the spellings that it always
has.
-/

namespace TypeExpr

open Json (Draft)

namespace Argument

/-- **The spellings of an argument item.** -/
inductive Spells (pass : Pass) : Draft → Argument → Prop
  /-- An ellipsis, by its name alone. -/
  | name : Spells pass (.text "ellipsis") ellipsis
  /-- An ellipsis under its name, without content. -/
  | unit {content : Draft} : content.asUnit pass = .ok () →
    Spells pass (.object [("ellipsis", content)] true) ellipsis
  | type {content : Draft} {node : Node} : node.Spells pass content →
    Spells pass (.object [("type", content)] true) (type node)

theorem ofContent_eq_ok_iff {pass : Pass} {key : String} {content : Draft} {item : Argument} :
    ofContent pass key content = .ok item ↔ Spells pass (.object [(key, content)] true) item := by
  rw [ofContent]
  constructor
  · intro h
    split at h
    · rename_i hkey
      subst hkey
      simp only [bind_eq_ok_iff, return_eq_ok_iff] at h
      obtain ⟨node, hnode, rfl⟩ := h
      exact .type (Node.ofDraft_eq_ok_iff.mp hnode)
    · split at h
      · rename_i hkey
        subst hkey
        simp only [bind_eq_ok_iff, return_eq_ok_iff] at h
        obtain ⟨_, hunit, rfl⟩ := h
        exact .unit hunit
      · cases h
  · intro h
    cases h with
    | unit hunit => simp [hunit]
    | type hnode => simp [Node.ofDraft_eq_ok_iff.mpr hnode]

/-- **The decoder accepts the spellings of argument items, and nothing else.** -/
theorem ofDraft_eq_ok_iff {pass : Pass} {d : Draft} {item : Argument} :
    ofDraft pass d = .ok item ↔ Spells pass d item := by
  unfold ofDraft
  split
  · constructor
    · intro h
      cases h
      exact .name
    · rintro ⟨⟩
      rfl
  · rename_i hne
    simp only [asChoice_eq_ok_iff, ofContent_eq_ok_iff]
    constructor
    · rintro ⟨key, content, rfl, h⟩
      exact h
    · intro h
      cases h with
      | name => exact absurd rfl hne
      | unit hunit => exact ⟨_, _, rfl, .unit hunit⟩
      | type hnode => exact ⟨_, _, rfl, .type hnode⟩

end Argument

namespace Parameter

/-- The nodes in a parameter. -/
def nodes : Parameter → List Node
  | args items => items.filterMap Argument.node?
  | type node => [node]

/-- **The spellings of a parameter.** -/
inductive Spells (pass : Pass) : Draft → Parameter → Prop
  | args {contents : List Draft} {items : List Argument} :
    List.Forall₂ (Argument.Spells pass) contents items →
      Spells pass (.object [("args", .array contents true)] true) (args items)
  | type {content : Draft} {node : Node} : node.Spells pass content →
    Spells pass (.object [("type", content)] true) (type node)

/-- **The decoder accepts the spellings of parameters, and nothing else.** -/
theorem ofDraft_eq_ok_iff {pass : Pass} {d : Draft} {param : Parameter} :
    ofDraft pass d = .ok param ↔ Spells pass d param := by
  rw [ofDraft]
  rw [asChoice_eq_ok_iff]
  constructor
  · rintro ⟨key, content, rfl, h⟩
    rw [ofContent] at h
    split at h
    · rename_i hkey
      subst hkey
      simp only [bind_eq_ok_iff, return_eq_ok_iff, asList_eq_ok_iff,
        Argument.ofDraft_eq_ok_iff] at h
      obtain ⟨items, ⟨contents, rfl, hitems⟩, rfl⟩ := h
      exact .args hitems
    · split at h
      · rename_i hkey
        subst hkey
        simp only [bind_eq_ok_iff, return_eq_ok_iff] at h
        obtain ⟨node, hnode, rfl⟩ := h
        exact .type (Node.ofDraft_eq_ok_iff.mp hnode)
      · cases h
  · intro h
    cases h with
    | args hitems =>
      refine ⟨_, _, rfl, ?_⟩
      simp only [ofContent, if_true, bind_eq_ok_iff, return_eq_ok_iff, asList_eq_ok_iff,
        Argument.ofDraft_eq_ok_iff]
      exact ⟨_, ⟨_, rfl, hitems⟩, rfl⟩
    | type hnode =>
      refine ⟨_, _, rfl, ?_⟩
      simp [ofContent, Node.ofDraft_eq_ok_iff.mpr hnode]

/-- The nodes of a spelled parameter are spelled inside it, one level below it or more. -/
theorem Spells.exists_node {pass : Pass} {d : Draft} {param : Parameter}
    (h : Spells pass d param) {node : Node} (hnode : node ∈ param.nodes) :
    ∃ content, node.Spells pass content ∧ content.nesting + 1 ≤ d.nesting := by
  cases h with
  | args hitems =>
    obtain ⟨item, hitem, hnode⟩ := List.mem_filterMap.mp hnode
    obtain ⟨c, hc, hspells⟩ := exists_of_mem_forall₂ hitems hitem
    have hle := Draft.nesting_le_of_mem_items hc
    cases hspells with
    | name | unit => cases hnode
    | type hcontent =>
      cases hnode
      refine ⟨_, hcontent, ?_⟩
      simp only [Draft.nesting, Draft.nestingOfMembers] at hle ⊢
      omega
  | type hcontent =>
    obtain rfl := List.mem_singleton.mp hnode
    refine ⟨_, hcontent, ?_⟩
    simp only [Draft.nesting, Draft.nestingOfMembers]
    omega

end Parameter

end TypeExpr
