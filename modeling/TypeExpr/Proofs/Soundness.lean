import TypeExpr.Proofs.Callable
import TypeExpr.Proofs.Positions

/-!
# Soundness

Nodes come from texts, by one of the readers, and from other nodes, by the builders. Neither way
leads to a callable without parameters. The readers refuse the spelling of one wherever they
decode it, and the one builder that makes callables puts the return type behind the arguments,
however the arguments are given: the list of parameters it makes is never empty, even if there
are no arguments.

A node is *obtained* if it is reached by any number of these steps, in any order.
-/

namespace TypeExpr

open Json (Draft Document)

/-! ### Nodes of what was read -/

theorem Argument.Spells.sound {pass : Pass} {d : Draft} {node : Node}
    (h : Argument.Spells pass d (.type node)) : node.Sound := by
  obtain _ | _ | hnode := h
  exact hnode.sound

theorem Parameter.Spells.sound {pass : Pass} {d : Draft} {param : Parameter}
    (h : Parameter.Spells pass d param) {node : Node} (hnode : node ∈ param.nodes) :
    node.Sound := by
  obtain ⟨content, hspells, -⟩ := h.exists_node hnode
  exact hspells.sound

theorem Request.Spells.sound {fields : Fields} {request : Request}
    (h : request.Spells fields) {node : Node} (hnode : node ∈ request.nodes) : node.Sound := by
  cases h with
  | list _ => exact absurd hnode List.not_mem_nil
  | typeOf _ hvalue | isAny _ hvalue | isNone _ hvalue | isString _ hvalue =>
    obtain rfl := List.mem_singleton.mp hnode
    exact hvalue.sound
  | tuple _ hparams =>
    obtain ⟨item, -, hitem⟩ := exists_of_mem_forall₂ hparams hnode
    exact hitem.sound
  | callable _ hparams =>
    obtain ⟨param, hparam, hnode⟩ := List.mem_flatMap.mp hnode
    obtain ⟨item, -, hitem⟩ := exists_of_mem_forall₂ hparams hparam
    exact hitem.sound hnode

theorem Request.StandsIn.sound {d : Draft} {request : Request} (h : Request.StandsIn d request)
    {node : Node} (hnode : node ∈ request.nodes) : node.Sound := by
  cases h with
  | keyed _ hspells _ | ordered hspells _ => exact hspells.sound hnode

theorem Entry.Spells.sound {d : Draft} {entry : Entry} (h : Entry.Spells d entry) {node : Node}
    (hnode : node ∈ entry.request.nodes) : node.Sound := by
  obtain ⟨-, -, hrequest, -, -⟩ := h
  exact hrequest.sound hnode

theorem RequestFile.sound_of_parse {path source : String} {file : RequestFile}
    (h : (RequestFile.parse path source).value = .ok file) {entry : Entry}
    (hentry : entry ∈ file.entries) {node : Node} (hnode : node ∈ entry.request.nodes) :
    node.Sound := by
  obtain ⟨-, -, hread⟩ := RequestFile.parse_eq_ok_iff.mp h
  obtain ⟨items, -, hitems⟩ := RequestFile.readEntries_eq_ok_iff.mp hread
  obtain ⟨item, -, hitem⟩ := exists_of_mem_forall₂ hitems hentry
  exact hitem.sound hnode

/-! ### Obtained nodes -/

namespace Node

/-- **What can be obtained**: the nodes in whatever a reader accepts, what the builders make of
obtained nodes, and the parameters of obtained nodes. -/
inductive Obtained : Node → Prop
  | node {source : String} {node : Node} : Node.read source = .ok node → Obtained node
  | argument {source : String} {node : Node} : Argument.read source = .ok (.type node) →
    Obtained node
  | parameter {source : String} {param : Parameter} {node : Node} :
    Parameter.read source = .ok param → node ∈ param.nodes → Obtained node
  | request {source : String} {request : Request} {node : Node} :
    Request.read source = .ok request → node ∈ request.nodes → Obtained node
  | entry {source : String} {entry : Entry} {node : Node} :
    Entry.read source = .ok entry → node ∈ entry.request.nodes → Obtained node
  | file {path source : String} {file : RequestFile} {entry : Entry} {node : Node} :
    (RequestFile.parse path source).value = .ok file → entry ∈ file.entries →
      node ∈ entry.request.nodes → Obtained node
  | listOf (name : String) : Obtained (listOf name)
  | typeOf {node : Node} : Obtained node → Obtained node.typeOf
  | tupleOf {base : String} {params : List Node} : (∀ param ∈ params, Obtained param) →
    Obtained (tupleOf base params)
  | callable {base : String} {first : Parameter} {more : List Parameter} {node : Node} :
    (∀ param ∈ (first :: more).flatMap Parameter.nodes, Obtained param) →
      (Callable.build base first more).value = .ok node → Obtained node
  | param {node param : Node} : Obtained node → param ∈ node.params → Obtained param

/-! Each builder makes sound nodes of sound nodes. -/

theorem sound_typeOf {node : Node} (h : node.Sound) : node.typeOf.Sound :=
  .applied (by simp) (List.forall_mem_singleton.mpr h)

theorem sound_tupleOf {base : String} {params : List Node}
    (h : ∀ param ∈ params, param.Sound) : (tupleOf base params).Sound :=
  .applied (by simp) h

theorem sound_listOf (name : String) : (listOf name).Sound := by
  rw [listOf]
  split
  · exact .named _
  · exact .applied (by simp) (List.forall_mem_singleton.mpr (.named name))

theorem sound_of_build {base : String} {first : Parameter} {more : List Parameter} {node : Node}
    (hnodes : ∀ param ∈ (first :: more).flatMap Parameter.nodes, param.Sound)
    (h : (Callable.build base first more).value = .ok node) : node.Sound := by
  obtain ⟨form, params, rfl, hne, hparams⟩ := Callable.exists_of_build h
  -- whatever the form, a built node has parameters
  refine .applied (fun _ => hne) fun param hparam => ?_
  rcases hparams param hparam with rfl | hmem
  · exact .anything
  · exact hnodes param hmem

/-- **Every obtained node is sound.** The induction is on the steps by which it is obtained. -/
theorem Obtained.sound {node : Node} (h : Obtained node) : node.Sound := by
  induction h with
  | node h => exact (ofDraft_eq_ok_iff.mp (decodeDocument_eq_ok_iff.mp h).1).sound
  | argument h => exact (Argument.ofDraft_eq_ok_iff.mp (decodeDocument_eq_ok_iff.mp h).1).sound
  | parameter h hnode =>
    exact (Parameter.ofDraft_eq_ok_iff.mp (decodeDocument_eq_ok_iff.mp h).1).sound hnode
  | request h hnode =>
    obtain hstands := Request.ofDraft_eq_ok_iff.mp (decodeDocument_eq_ok_iff.mp h).1
    exact hstands.sound hnode
  | entry h hnode =>
    exact (Entry.ofDraft_eq_ok_iff.mp (decodeDocument_eq_ok_iff.mp h).1).sound hnode
  | file h hentry hnode => exact RequestFile.sound_of_parse h hentry hnode
  | listOf name => exact sound_listOf name
  | typeOf _ ih => exact sound_typeOf ih
  | tupleOf _ ih => exact sound_tupleOf ih
  | callable _ h ih => exact sound_of_build ih h
  | @param node param _ hparam ih =>
    cases ih with
    | applied _ hparams => exact hparams param hparam
    | _ => exact absurd hparam List.not_mem_nil

end Node

/-! ### Readers and builders -/

/-- **No callable without parameters comes out of the readers and builders, and none goes in.**
Every obtained node is sound. A text that a reader accepts spells something of its kind, up to its
end: no part in a decoded position is broken or cut short, and if the text is stored first, no part
at all. And a text with a hollow callable in a decoded position, at any depth, is refused by the
reader. -/
theorem obtained_sound_and_hollow_refused :
    (∀ node : Node, node.Obtained → node.Sound) ∧
    (∀ (kind : Kind) (source : String), kind.Reads source →
      kind.Accepts (kind.document source).draft ∧ (kind.document source).ended = true ∧
        (kind.pass = .stored → (kind.document source).draft.isWhole = true)) ∧
    ∀ (kind : Kind) (source : String), kind.HasHollow (kind.document source).draft →
      ¬kind.Reads source := by
  refine ⟨fun _ h => h.sound, fun kind source hreads => ?_, fun kind source hhollow hreads => ?_⟩
  · obtain ⟨haccepts, hended⟩ := hreads.accepts
    exact ⟨haccepts, hended, haccepts.isWhole⟩
  · exact hhollow.not_accepts hreads.accepts.1

/-- The type of a callable that was read with its body in the other order, and with a numeral out of
range in a member that nobody asks for, is sound. An argument list with a callable in it, whose body
is the array of a base and nothing, is refused. -/
theorem sound_typeOf_and_hollow_argument_refused :
    (∃ source node, source = "\x7b\"callable\":\x7b\"params\":[\"anything\"]," ++
        "\"note\":1e999,\"base\":\"typing.Callable\"\x7d\x7d" ∧
      Node.read source = .ok node ∧ node.typeOf.Sound ∧
        (Kind.node.document source).ended = true) ∧
    ¬Kind.parameter.Reads (Json.object [("args", .array [.object [("type", .object [("callable",
      .array [.text "typing.Callable", .array []])])]])]).compact := by
  constructor
  · have hread : Node.read ("\x7b\"callable\":\x7b\"params\":[\"anything\"]," ++
        "\"note\":1e999,\"base\":\"typing.Callable\"\x7d\x7d") =
          .ok (.applied .callable "typing.Callable" [.anything]) := by
      decide +kernel
    exact ⟨_, _, rfl, hread, obtained_sound_and_hollow_refused.1 _ (.typeOf (.node hread)),
      (obtained_sound_and_hollow_refused.2.1 .node _ ⟨_, hread⟩).2.1⟩
  · refine obtained_sound_and_hollow_refused.2.2 .parameter _ ?_
    change Kind.parameter.HasHollow (Document.skim _).draft
    rw [Document.skim_of_says (Json.says_compact _) rfl, Json.clip_of_nesting_le (by decide)]
    exact .inside (.item (.head _) (.head _)) (.inside (.argument (.head _))
      (.here (.mk (.head _) .ordered)))

end TypeExpr
