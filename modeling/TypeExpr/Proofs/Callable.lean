import TypeExpr.Request
import TypeExpr.Proofs.Decode.Parameter

/-!
# What a callable annotation builds

The callable rule asks for its checks one after the other, and its records go beside the value.
When it builds a node, which one can be said at once: the return type is the second parameter,
or the dynamic type if there is none, and it stands last. In front of it stand the listed
arguments, or, if the arguments were left open, the spelling of the dynamic type that said so.

The return type standing last is what keeps a built callable sound, also where the arguments
are none: its list of parameters has at least this one.
-/

namespace TypeExpr.Callable

/-- The return type that the parameters behind the first give. -/
def returnType? : List Parameter → Option Node
  | [] => some .anything
  | [.type ret] => some ret
  | _ => none

theorem returnType?_eq_some_iff {more : List Parameter} {ret : Node} :
    returnType? more = some ret ↔ more = [] ∧ ret = .anything ∨ more = [.type ret] := by
  rcases more with _ | ⟨items | node, _ | ⟨third, others⟩⟩ <;>
    simp [returnType?, @eq_comm _ ret]

/-- **The arguments that a bracketed list gives**: none, if the bottom type stands alone in it,
and else its types. -/
inductive Lists : List Argument → List Node → Prop
  | bottom : Lists [.type .nothing] []
  | types {nodes : List Node} : nodes ≠ [.nothing] → Lists (nodes.map .type) nodes

/-- **What a callable annotation builds** from its base, its first parameter and its return
type. -/
inductive Builds (base : String) (ret : Node) : Parameter → Node → Prop
  /-- A callable with the listed arguments. -/
  | listed {items : List Argument} {nodes : List Node} : Lists items nodes →
    Builds base ret (.args items) (.applied .callable base (nodes ++ [ret]))
  /-- A generic, if the arguments are left open. -/
  | unknown {any : Node} : any.isAny = true →
    Builds base ret (.type any) (.applied .generic base [any, ret])

theorem mapM_node?_eq_some_iff {items : List Argument} {nodes : List Node} :
    items.mapM Argument.node? = some nodes ↔ items = nodes.map .type := by
  induction items generalizing nodes with
  | nil => cases nodes <;> simp
  | cons item items ih =>
    rw [List.mapM_cons]
    simp only [Option.bind_eq_bind, Option.bind_eq_some_iff, Option.pure_def,
      Option.some.injEq, ih]
    constructor
    · rintro ⟨node, hnode, rest, rfl, rfl⟩
      cases item with
      | type n =>
        cases hnode
        rfl
      | ellipsis => cases hnode
    · intro h
      cases nodes with
      | nil => cases h
      | cons node rest =>
        obtain ⟨rfl, rfl⟩ := List.cons.inj h
        exact ⟨node, rfl, rest, rfl, rfl⟩

theorem ofItems_eq_ok_iff {base : String} {items : List Argument} {ret node : Node} :
    ofItems base items ret = .ok node ↔ Builds base ret (.args items) node := by
  rw [ofItems]
  constructor
  · intro h
    split at h
    · rename_i hnone
      cases h
      rcases hnone with rfl | rfl
      · exact .listed (@Lists.types [] (by simp))
      · exact .listed .bottom
    · rename_i hsome
      split at h
      · rename_i nodes hnodes
        cases h
        obtain rfl := mapM_node?_eq_some_iff.mp hnodes
        refine .listed (.types ?_)
        rintro rfl
        exact hsome (Or.inr rfl)
      · cases h
  · rintro (hlists | _)
    cases hlists with
    | bottom => rfl
    | types hne =>
      rename_i nodes
      cases nodes with
      | nil => rfl
      | cons n rest =>
        -- neither of the two spellings of no arguments
        have hsome : ¬((n :: rest).map Argument.type = [] ∨
            (n :: rest).map Argument.type = [.type .nothing]) := by
          rintro (h | h)
          · cases h
          · exact hne (List.map_injective_iff.mpr (fun _ _ h => Argument.type.inj h) h)
        rw [if_neg hsome, mapM_node?_eq_some_iff.mpr rfl]

theorem ofArguments_eq_ok_iff {base : String} {args : Parameter} {ret node : Node} :
    (ofArguments base args ret).value = .ok node ↔ Builds base ret args node := by
  cases args with
  | args items => exact ofItems_eq_ok_iff
  | type any =>
    rw [ofArguments]
    by_cases hany : any.isAny = true
    · simp only [hany, if_true]
      constructor
      · rintro ⟨⟩
        exact .unknown hany
      · rintro ⟨⟩
        rfl
    · simp only [hany]
      constructor
      · exact fun h => by cases h
      · rintro ⟨⟩
        contradiction

/-- **When a callable annotation is built, and what it builds.** -/
theorem build_eq_ok_iff {base : String} {first : Parameter} {more : List Parameter}
    {node : Node} :
    (build base first more).value = .ok node ↔
      ∃ ret, returnType? more = some ret ∧ Builds base ret first node := by
  unfold build
  split
  · simp [returnType?, ofArguments_eq_ok_iff]
  · simp [returnType?, ofArguments_eq_ok_iff]
  · simp [returnType?]
  · rename_i hnil htype hargs
    have hnone : returnType? more = none := by
      unfold returnType?
      split
      · exact absurd rfl hnil
      · exact absurd rfl (htype _)
      · rfl
    simp [hnone]

/-- The return type is the dynamic type or one of the nodes in the other parameters. -/
theorem mem_of_returnType? {more : List Parameter} {ret : Node} (h : returnType? more = some ret) :
    ret = .anything ∨ ret ∈ more.flatMap Parameter.nodes := by
  unfold returnType? at h
  split at h
  · exact Or.inl (Option.some.inj h).symm
  · obtain rfl := Option.some.inj h
    exact Or.inr (by simp [Parameter.nodes])
  · cases h

/-- **A built node is a base applied to nodes of the annotation**, and to the dynamic type where
no return type is given. It is never a callable without parameters. -/
theorem exists_of_build {base : String} {first : Parameter} {more : List Parameter} {node : Node}
    (h : (build base first more).value = .ok node) :
    ∃ form params, node = .applied form base params ∧ params ≠ [] ∧
      ∀ param ∈ params, param = .anything ∨ param ∈ (first :: more).flatMap Parameter.nodes := by
  obtain ⟨ret, hret, hbuilds⟩ := build_eq_ok_iff.mp h
  have hmem : ret = .anything ∨ ret ∈ (first :: more).flatMap Parameter.nodes := by
    rw [List.flatMap_cons, List.mem_append]
    exact (mem_of_returnType? hret).imp_right Or.inr
  cases hbuilds with
  | @listed items nodes hlists =>
    refine ⟨.callable, nodes ++ [ret], rfl, by simp, fun param hparam => ?_⟩
    -- a parameter is one of the listed arguments or the return type behind them
    rcases List.mem_append.mp hparam with hparam | hparam
    · cases hlists with
      | bottom => exact absurd hparam List.not_mem_nil
      | types hne =>
        refine Or.inr (List.mem_append_left _ (List.mem_filterMap.mpr ⟨.type param, ?_, rfl⟩))
        exact List.mem_map_of_mem hparam
    · obtain rfl := List.mem_singleton.mp hparam
      exact hmem
  | @unknown any hany =>
    refine ⟨.generic, [any, ret], rfl, by simp, fun param hparam => ?_⟩
    rcases List.mem_cons.mp hparam with rfl | hparam
    · exact Or.inr (List.mem_append_left _ (List.mem_singleton_self _))
    · obtain rfl := List.mem_singleton.mp hparam
      exact hmem

end TypeExpr.Callable
