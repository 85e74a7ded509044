import TypeExpr.JsonForm
import TypeExpr.Proofs.Json.Nesting

/-!
# Nodes as trees

Two things can be said of a node that its readers care for. A node is *sound* if none of its
callables, at any depth, has an empty list of parameters, and its *nesting* is the number of
levels of brackets in its written form: one for a name, and for an applied base three more
than the deepest of its parameters has.

The written form brings three levels at a time, over leaves of one level or none. So the
nesting of a node never leaves the remainder two by three, and a limit on it that does may be
lowered by one (`Node.nesting_mod_three_ne`).
-/

namespace TypeExpr.Node

/-- Induction on a node, with a hypothesis for each parameter. -/
@[elab_as_elim, induction_eliminator]
theorem induct {motive : Node → Prop} (named : ∀ name, motive (.named name))
    (applied : ∀ form base params, (∀ param ∈ params, motive param) →
      motive (.applied form base params))
    (anything : motive .anything) (nothing : motive .nothing) : ∀ node, motive node
  | .named name => named name
  | .applied form base params => applied form base params fun param _ =>
    induct named applied anything nothing param
  | .anything => anything
  | .nothing => nothing

/-- Induction on a node of whatever kind, with a hypothesis for each parameter. -/
theorem induct_params {motive : Node → Prop}
    (step : ∀ node, (∀ param ∈ node.params, motive param) → motive node) (node : Node) :
    motive node := by
  induction node with
  | applied form base params ih => exact step _ ih
  | _ => exact step _ fun _ h => absurd h List.not_mem_nil

/-! ### Soundness -/

/-- **A sound node**: no callable in it, at any depth, has an empty list of parameters. -/
inductive Sound : Node → Prop
  | named (name : String) : Sound (named name)
  | applied {form : Form} {base : String} {params : List Node} :
    (form = .callable → params ≠ []) → (∀ param ∈ params, Sound param) →
      Sound (applied form base params)
  | anything : Sound anything
  | nothing : Sound nothing

theorem sound_applied_iff {form : Form} {base : String} {params : List Node} :
    (applied form base params).Sound ↔
      (form = .callable → params ≠ []) ∧ ∀ param ∈ params, param.Sound := by
  constructor
  · rintro (_ | ⟨hne, hparams⟩)
    exact ⟨hne, hparams⟩
  · exact fun h => .applied h.1 h.2

/-! ### Nesting -/

mutual

/-- How many levels of brackets the written form of a node has. -/
def nesting : Node → Nat
  | named _ => 1
  | applied _ _ params => nestingOfParams params + 3
  | anything => 0
  | nothing => 0

/-- How many levels of brackets the deepest of some parameters has. -/
def nestingOfParams : List Node → Nat
  | [] => 0
  | param :: params => max param.nesting (nestingOfParams params)

end

theorem nestingOfParams_le_iff {n : Nat} {params : List Node} :
    nestingOfParams params ≤ n ↔ ∀ param ∈ params, param.nesting ≤ n := by
  induction params with
  | nil => simp [nestingOfParams]
  | cons param params ih => rw [nestingOfParams, Nat.max_le, ih, List.forall_mem_cons]

/-- The nesting of a node leaves the remainder zero or one by three. -/
theorem nesting_mod_three_ne (node : Node) : node.nesting % 3 ≠ 2 := by
  induction node with
  | named name => simp [nesting]
  | applied form base params ih =>
    have hparams : nestingOfParams params % 3 ≠ 2 := by
      clear form base
      induction params with
      | nil => decide
      | cons param params ihs =>
        have hparam := ih param List.mem_cons_self
        have hrest := ihs fun param h => ih param (List.mem_cons_of_mem _ h)
        rw [nestingOfParams]
        omega
    rw [nesting]
    omega
  | anything => decide
  | nothing => decide

/-! ### The written form -/

theorem nestingOfItems_map_toJson {params : List Node}
    (h : ∀ param ∈ params, param.toJson.nesting = param.nesting) :
    Json.nestingOfItems (params.map toJson) = nestingOfParams params := by
  induction params with
  | nil => rfl
  | cons param params ih =>
    rw [List.map_cons, Json.nestingOfItems, nestingOfParams, h param List.mem_cons_self,
      ih fun param hp => h param (List.mem_cons_of_mem _ hp)]

/-- **The nesting of a node is that of its written form.** -/
theorem nesting_toJson (node : Node) : node.toJson.nesting = node.nesting := by
  induction node with
  | named name => rfl
  | applied form base params ih =>
    rw [toJson, toJsons_eq_map]
    simp [Json.nesting, Json.nestingOfMembers, nesting, nestingOfItems_map_toJson ih]
  | anything => rfl
  | nothing => rfl

/-- The written form of a node has no numerals. -/
theorem inRange_toJson (node : Node) : node.toJson.inRange = true := by
  induction node with
  | named name => rfl
  | applied form base params ih =>
    have hparams : Json.allInRange (params.map toJson) = true :=
      Json.allInRange_iff.mpr (List.forall_mem_map.mpr ih)
    rw [toJson, toJsons_eq_map]
    simp [Json.inRange, Json.membersInRange, hparams]
  | anything => rfl
  | nothing => rfl

end TypeExpr.Node
