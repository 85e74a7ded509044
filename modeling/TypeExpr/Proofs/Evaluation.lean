import Mathlib.Data.List.Forall2
import TypeExpr.CommandLine
import TypeExpr.Proofs.Decode.Request
import TypeExpr.Proofs.Soundness

/-!
# What requests evaluate to

A file has outcomes if each of its requests has one, and then they are these, in order: an
evaluation that stops at no request hands on nothing from one request to the next. So what is
said of a single request, given how it was read, holds of every outcome of a file.

Two things are said here of a node that a request evaluates to. It is sound, and its written form
keeps within the nesting limit. The second is a close fit. The request took at least two levels of
the file for itself, and building a type object or a tuple adds three to the value or one more than
that to the parameters. A value may be as deep as two levels below the limit, but no node is nested
exactly that deep, since its nesting leaves another remainder by three.
-/

namespace TypeExpr

open Json (Draft Document)

/-! ### Files -/

namespace RequestFile

/-- **A file has outcomes if each of its requests has one.** -/
theorem evaluateFrom_eq_ok_iff {file : RequestFile} {index : Nat} {entries : List Entry}
    {outcomes : List Outcome} :
    (file.evaluateFrom index entries).value = .ok outcomes ↔
      List.Forall₂ (fun (entry : Entry) outcome => entry.request.evaluate.value = .ok outcome)
        entries outcomes := by
  induction entries generalizing index outcomes with
  | nil =>
    rw [List.forall₂_nil_left_iff]
    exact ⟨fun h => (Except.ok.inj h).symm, fun h => congrArg Except.ok h.symm⟩
  | cons entry entries ih =>
    rw [evaluateFrom, List.forall₂_cons_left_iff]
    cases hstep : entry.request.evaluate.value with
    | ok outcome =>
      simp only [Logged.value_after, Logged.value_map, map_eq_ok_iff, ih, Except.ok.injEq]
      constructor
      · rintro ⟨rest, hrest, rfl⟩
        exact ⟨outcome, rest, rfl, hrest, rfl⟩
      · rintro ⟨_, rest, rfl, hrest, rfl⟩
        exact ⟨rest, hrest, rfl⟩
    | error failure =>
      constructor
      · intro h
        cases failure <;> cases h
      · rintro ⟨_, _, h, -⟩
        cases h

theorem exists_evaluate_iff {file : RequestFile} :
    (∃ outcomes, file.evaluate.value = .ok outcomes) ↔
      ∀ entry ∈ file.entries, ∃ outcome, entry.request.evaluate.value = .ok outcome := by
  rw [← exists_forall₂_iff]
  exact exists_congr fun outcomes => evaluateFrom_eq_ok_iff

end RequestFile

/-! ### Requests -/

namespace Request

theorem ofBuilt_eq_node_iff {built : Except CallableError Node} {node : Node} :
    ofBuilt built = .ok (.node node) ↔ built = .ok node := by
  cases built <;> simp [ofBuilt]

/-- **What a request may evaluate to**, if it is a node: what the builder for it makes. -/
theorem evaluate_eq_node_cases {request : Request} {node : Node}
    (h : request.evaluate.value = .ok (.node node)) :
    (∃ name, request = list name ∧ node = .listOf name) ∨
    (∃ value, request = typeOf value ∧ node = value.typeOf) ∨
    (∃ base params, request = tuple base params ∧ node = .tupleOf base params) ∨
    ∃ base first more, request = callable base (first :: more) ∧
      (Callable.build base first more).value = .ok node := by
  cases request with
  | list name =>
    cases h
    exact .inl ⟨name, rfl, rfl⟩
  | typeOf value =>
    cases h
    exact .inr (.inl ⟨value, rfl, rfl⟩)
  | tuple base params =>
    cases h
    exact .inr (.inr (.inl ⟨base, params, rfl, rfl⟩))
  | callable base params =>
    cases params with
    | nil => cases h
    | cons first more => exact .inr (.inr (.inr ⟨base, first, more, rfl, ofBuilt_eq_node_iff.mp h⟩))
  | isAny value | isNone value | isString value => cases h

/-- A request of sound nodes evaluates to a sound node, if to any. -/
theorem sound_of_evaluate {request : Request} {node : Node}
    (hnodes : ∀ param ∈ request.nodes, param.Sound)
    (h : request.evaluate.value = .ok (.node node)) : node.Sound := by
  rcases evaluate_eq_node_cases h with ⟨name, rfl, rfl⟩ | ⟨value, rfl, rfl⟩ |
    ⟨base, params, rfl, rfl⟩ | ⟨base, first, more, rfl, hbuild⟩
  · exact Node.sound_listOf name
  · exact Node.sound_typeOf (hnodes value (List.mem_singleton_self value))
  · exact Node.sound_tupleOf hnodes
  · exact Node.sound_of_build hnodes hbuild

end Request

/-! ### Nesting -/

theorem Node.nesting_listOf_le (name : String) : (listOf name).nesting ≤ 4 := by
  rw [listOf]
  split
  · exact (by decide : 1 ≤ 4)
  · exact Nat.le_refl 4

/-- A built callable is at most three levels deeper than the nodes of its annotation. -/
theorem Callable.nesting_le_of_build {base : String} {first : Parameter} {more : List Parameter}
    {node : Node} (h : (build base first more).value = .ok node) {n : Nat}
    (hnodes : ∀ param ∈ (first :: more).flatMap Parameter.nodes, param.nesting ≤ n) :
    node.nesting ≤ n + 3 := by
  obtain ⟨form, params, rfl, -, hparams⟩ := exists_of_build h
  refine Nat.add_le_add_right (Node.nestingOfParams_le_iff.mpr fun param hparam => ?_) 3
  rcases hparams param hparam with rfl | hmem
  · exact Nat.zero_le n
  · exact hnodes param hmem

/-- **The nesting of an evaluated request** is within the limit, if the members that spell the
request are at least two levels below it. -/
theorem Request.nesting_of_evaluate {members : List (String × Draft)} {request : Request} {node : Node}
    (hspells : request.Spells (.keyed members))
    (hmembers : Draft.nestingOfMembers members + 2 ≤ Json.nestingLimit)
    (h : request.evaluate.value = .ok (.node node)) : node.nesting ≤ Json.nestingLimit := by
  have hlimit : Json.nestingLimit = 127 := rfl
  rcases evaluate_eq_node_cases h with ⟨name, rfl, rfl⟩ | ⟨value, rfl, rfl⟩ |
    ⟨base, params, rfl, rfl⟩ | ⟨base, first, more, rfl, hbuild⟩
  · exact Nat.le_trans (Node.nesting_listOf_le name) (by decide)
  · obtain _ | ⟨hsole, hvalue⟩ := hspells
    have hcontent := Draft.nesting_le_of_mem_members hsole.mem
    have hle := hvalue.nesting_le
    -- 125 levels are allowed for the value, and a node never has as many
    have hmod := value.nesting_mod_three_ne
    simp only [Node.typeOf, Node.nesting, Node.nestingOfParams]
    omega
  · obtain _ | _ | ⟨hboth, hparams⟩ := hspells
    have hcontent := Draft.nesting_le_of_mem_members hboth.2.mem
    have hle : Node.nestingOfParams params ≤ Draft.nestingOfItems _ :=
      Node.nestingOfParams_le_iff.mpr fun param hparam => by
        obtain ⟨item, hitem, hspells⟩ := exists_of_mem_forall₂ hparams hparam
        exact Nat.le_trans hspells.nesting_le (Draft.nesting_le_of_mem_items hitem)
    simp only [Node.tupleOf, Node.nesting, Draft.nesting] at hcontent ⊢
    omega
  · obtain _ | _ | _ | ⟨hboth, hparams⟩ := hspells
    have hcontent := Draft.nesting_le_of_mem_members hboth.2.mem
    -- the array, the parameter and the node in it leave 123 levels for the node
    refine Nat.le_trans (Callable.nesting_le_of_build (n := 123) hbuild fun node hnode => ?_)
      (by decide)
    obtain ⟨param, hparam, hnode⟩ := List.mem_flatMap.mp hnode
    obtain ⟨item, hitem, hspells⟩ := exists_of_mem_forall₂ hparams hparam
    obtain ⟨content, hnode, hle⟩ := hspells.exists_node hnode
    have hitems := Draft.nesting_le_of_mem_items hitem
    have hnode := hnode.nesting_le
    simp only [Draft.nesting] at hcontent
    omega

end TypeExpr
