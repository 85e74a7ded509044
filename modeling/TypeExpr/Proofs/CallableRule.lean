import TypeExpr.Proofs.Callable
import TypeExpr.Proofs.Node.SurfaceText

/-!
# The callable rule

An annotation can be wrong in more than one way at once, and one error is reported. Which one, and
what is built where nothing is wrong, is a table of cases: first the number of parameters, then the
return type, then the arguments (`Callable.Yields`). The rule and the table agree on every
annotation, so some case applies to each, and no two that come to different results.

Not every difference between annotations arrives in the node. Two of them are given up: whether a
missing return type was spelled out, and whether no arguments are an empty list or the bottom type
alone. An annotation without these two is *canonical* (`Callable.canonical`). From there on nothing
is lost: the node and the canonical annotation determine each other (`Callable.Forms`), and the text
of the node is the base with the texts of the canonical parameters in brackets
(`Callable.Forms.text_eq`).
-/

namespace TypeExpr

/-- The dynamic type has two spellings. -/
theorem Node.isAny_iff {node : Node} :
    node.isAny = true ↔ node = .anything ∨ node = .named "typing.Any" := by
  cases node <;> simp [Node.isAny]

namespace Callable

/-! ### The cases -/

/-- **What the arguments come to**, when the return type is known. -/
inductive ArgumentsYield (base : String) (ret : Node) :
    Parameter → Except CallableError Node → Prop
  /-- There is an ellipsis in the list, at whatever place. -/
  | ellipsis {items : List Argument} : .ellipsis ∈ items →
    ArgumentsYield base ret (.args items)
      (.error (.shape ("Invalid Callable args, did you mean Callable[..., " ++
        (if ret = .anything ∨ ret = .named "typing.Any" then "Any" else ret.text) ++ "]?")))
  /-- The list has the bottom type in it and nothing else, and counts as empty. -/
  | bottom : ArgumentsYield base ret (.args [.type .nothing]) (.ok (.applied .callable base [ret]))
  /-- The list has types in it, and the return type goes behind them. -/
  | types {nodes : List Node} : nodes ≠ [.nothing] →
    ArgumentsYield base ret (.args (nodes.map .type))
      (.ok (.applied .callable base (nodes ++ [ret])))
  /-- The arguments are left open. The dynamic type keeps its spelling. -/
  | unknown {any : Node} : any = .anything ∨ any = .named "typing.Any" →
    ArgumentsYield base ret (.type any) (.ok (.applied .generic base [any, ret]))
  /-- There is a type in the place of the list. -/
  | single {node : Node} : ¬(node = .anything ∨ node = .named "typing.Any") →
    ArgumentsYield base ret (.type node) (.error (.firstArgument node.text))

/-- **What a callable annotation comes to**, from its first parameter and the others. -/
inductive Yields (base : String) (first : Parameter) :
    List Parameter → Except CallableError Node → Prop
  /-- There are more than two parameters, whatever they are. -/
  | arity {more : List Parameter} : 2 < (first :: more).length →
    Yields base first more (.error (.arity (first :: more).length))
  /-- There is a list in the place of the return type, whatever the first parameter is. -/
  | returnIsList {items : List Argument} :
    Yields base first [.args items]
      (.error (.shape ("Invalid Callable return type, expected a single type (got " ++
        (Parameter.args items).text ++ ")")))
  /-- There is no return type, and the dynamic type is taken. -/
  | missingReturn {result : Except CallableError Node} :
    ArgumentsYield base .anything first result → Yields base first [] result
  /-- There is a return type. -/
  | arguments {ret : Node} {result : Except CallableError Node} :
    ArgumentsYield base ret first result → Yields base first [.type ret] result

theorem mapM_node?_eq_none_iff {items : List Argument} :
    items.mapM Argument.node? = none ↔ .ellipsis ∈ items := by
  induction items with
  | nil => simp
  | cons item items ih =>
    rw [List.mapM_cons, List.mem_cons, ← ih]
    cases item <;> cases items.mapM Argument.node? <;> simp [Argument.node?]

/-- Some case of the table applies to the arguments. -/
theorem argumentsYield_ofArguments (base : String) (args : Parameter) (ret : Node) :
    ArgumentsYield base ret args (ofArguments base args ret).value := by
  rcases args with items | node
  · rw [ofArguments, Logged.value_quiet, ofItems]
    split_ifs with hnone
    · rcases hnone with rfl | rfl
      · exact ArgumentsYield.types (List.cons_ne_nil _ _).symm
      · exact .bottom
    · rcases hnodes : items.mapM Argument.node? with _ | nodes
      · have hmem := mapM_node?_eq_none_iff.mp hnodes
        simpa only [ellipsisMisuse, Node.isAny_iff] using ArgumentsYield.ellipsis hmem
      · obtain rfl := mapM_node?_eq_some_iff.mp hnodes
        exact .types fun h => hnone (Or.inr (by rw [h]; rfl))
  · rw [ofArguments]
    split_ifs with hany
    · exact .unknown (Node.isAny_iff.mp hany)
    · exact .single (mt Node.isAny_iff.mpr hany)

/-- The rule takes the case of the table that applies to the arguments. -/
theorem ArgumentsYield.ofArguments_eq {base : String} {args : Parameter} {ret : Node}
    {result : Except CallableError Node} (h : ArgumentsYield base ret args result) :
    (ofArguments base args ret).value = result := by
  cases h with
  | @ellipsis items hmem =>
    have hsome : ¬(items = [] ∨ items = [.type .nothing]) := by
      rintro (rfl | rfl) <;> simp at hmem
    rw [ofArguments, Logged.value_quiet, ofItems, if_neg hsome, mapM_node?_eq_none_iff.mpr hmem]
    simp only [ellipsisMisuse, Node.isAny_iff]
  | bottom => rfl
  | types hne => exact ofArguments_eq_ok_iff.mpr (.listed (.types hne))
  | unknown hany => exact ofArguments_eq_ok_iff.mpr (.unknown (Node.isAny_iff.mpr hany))
  | single hnot =>
    rw [ofArguments, if_neg (mt Node.isAny_iff.mp hnot)]
    rfl

/-- Too many parameters are refused before one of them is looked at. -/
theorem build_of_two_le_length {more : List Parameter} (h : 2 ≤ more.length) (base : String)
    (first : Parameter) :
    (build base first more).value = .error (.arity (first :: more).length) := by
  rcases more with _ | ⟨second, _ | ⟨third, others⟩⟩
  · exact absurd h (by decide)
  · exact absurd h (by simp)
  · cases second <;> rfl

/-- Some case of the table applies to an annotation. -/
theorem yields_build (base : String) (first : Parameter) (more : List Parameter) :
    Yields base first more (build base first more).value := by
  rcases more with _ | ⟨second, _ | ⟨third, others⟩⟩
  · exact .missingReturn (argumentsYield_ofArguments base first .anything)
  · rcases second with items | ret
    · exact .returnIsList
    · exact .arguments (argumentsYield_ofArguments base first ret)
  · rw [build_of_two_le_length (by simp)]
    exact .arity (by simp)

/-- The rule takes the case of the table that applies to an annotation. -/
theorem Yields.build_eq {base : String} {first : Parameter} {more : List Parameter}
    {result : Except CallableError Node} (h : Yields base first more result) :
    (build base first more).value = result := by
  cases h with
  | arity hlength => exact build_of_two_le_length (Nat.le_of_lt_succ hlength) base first
  | returnIsList => rfl
  | missingReturn harguments => exact harguments.ofArguments_eq
  | arguments harguments => exact harguments.ofArguments_eq

/-- **The callable rule is decided by the table.** Every annotation comes to one result by the
table, and this is what the rule gives. -/
theorem build_eq_iff_yields (base : String) (first : Parameter) (more : List Parameter) :
    (∃! result, Yields base first more result) ∧
      ∀ result, (build base first more).value = result ↔ Yields base first more result := by
  have hiff (result : Except CallableError Node) :
      (build base first more).value = result ↔ Yields base first more result := by
    constructor
    · rintro rfl
      exact yields_build base first more
    · exact Yields.build_eq
  exact ⟨⟨_, yields_build base first more, fun result h => h.build_eq.symm⟩, hiff⟩

/-! ### Canonical annotations -/

/-- **The canonical annotation**: with a return type, and with no arguments always as an empty
list. -/
def canonical (first : Parameter) (more : List Parameter) : List Parameter :=
  (if first = .args [.type .nothing] then .args [] else first) ::
    if more = [] then [.type .anything] else more

theorem canonical_eq {more : List Parameter} {ret : Node} (h : returnType? more = some ret)
    (first : Parameter) :
    canonical first more =
      [if first = .args [.type .nothing] then .args [] else first, .type ret] := by
  rcases returnType?_eq_some_iff.mp h with ⟨rfl, rfl⟩ | rfl <;> rfl

/-- **The node of a canonical annotation.** -/
inductive Forms (base : String) : List Parameter → Node → Prop
  /-- A callable, of a list of types and the return type. -/
  | listed (nodes : List Node) (ret : Node) :
    Forms base [.ofNodes nodes, .type ret] (.applied .callable base (nodes ++ [ret]))
  /-- A generic, of what leaves the arguments open and the return type. -/
  | unknown (any ret : Node) :
    Forms base [.type any, .type ret] (.applied .generic base [any, ret])

theorem ofNodes_injective : Function.Injective Parameter.ofNodes := by
  intro ms ns h
  exact List.map_injective_iff.mpr (fun _ _ h => Argument.type.inj h) (Parameter.args.inj h)

/-- **A built node is the node of the canonical annotation.** -/
theorem forms_canonical {base : String} {first : Parameter} {more : List Parameter} {node : Node}
    (h : (build base first more).value = .ok node) : Forms base (canonical first more) node := by
  obtain ⟨ret, hret, hbuilds⟩ := build_eq_ok_iff.mp h
  rw [canonical_eq hret]
  cases hbuilds with
  | @listed items nodes hlists =>
    cases hlists with
    | bottom => exact .listed [] ret
    | types hne =>
      have hlist : Parameter.args (nodes.map .type) ≠ .args [.type .nothing] :=
        ofNodes_injective.ne hne
      rw [if_neg hlist]
      exact .listed nodes ret
  | @unknown any hany => exact .unknown any ret

/-- **The node and the canonical annotation determine each other.** -/
theorem Forms.node_eq_iff {b c : String} {ps qs : List Parameter} {m n : Node}
    (hm : Forms b ps m) (hn : Forms c qs n) : m = n ↔ b = c ∧ ps = qs := by
  cases hm with
  | listed nodes ret =>
    cases hn with
    | listed others last => simp [ofNodes_injective.eq_iff]
    | unknown any last => simp [Parameter.ofNodes]
  | unknown any ret =>
    cases hn with
    | listed others last => simp [Parameter.ofNodes]
    | unknown other last => simp

/-- **The text of the node is that of the canonical annotation.** -/
theorem Forms.text_eq {base : String} {params : List Parameter} {node : Node}
    (h : Forms base params node) :
    node.text = base ++ "[" ++ ", ".intercalate (params.map Parameter.text) ++ "]" := by
  cases h with
  | listed nodes ret =>
    have hret : (Parameter.type ret).text = ret.text := rfl
    rw [Node.text_callable, List.map_cons, List.map_singleton, String.intercalate_cons_cons,
      String.intercalate_singleton, hret]
    simp only [String.append_assoc]
  | unknown any ret => exact Node.text_applied (fun h : Form.generic = .callable => nomatch h) base

/-- A callable is rebuilt from its arguments and its return type, unless the only argument is the
bottom type. -/
theorem build_ofNodes_eq_iff (base : String) (args : List Node) (ret : Node) :
    (build base (.ofNodes args) [.type ret]).value = .ok (.applied .callable base (args ++ [ret])) ↔
      args ≠ [.nothing] := by
  constructor
  · rintro h rfl
    cases h
  · intro hne
    exact build_eq_ok_iff.mpr ⟨ret, rfl, .listed (.types hne)⟩

/-- **The callable rule loses nothing but the two collapses.** Two annotations build the same node
if and only if they have the same base and the same canonical annotation. So an argument list never
builds the node of arguments that are left open; and every callable with parameters is rebuilt from
its arguments and its return type, except for those of one argument, the bottom type. -/
theorem build_eq_build_iff {b c : String} {p q : Parameter} {ps qs : List Parameter}
    {m n : Node} (hm : (build b p ps).value = .ok m) (hn : (build c q qs).value = .ok n) :
    ((build b p ps).value = (build c q qs).value ↔
      b = c ∧ canonical p ps = canonical q qs) ∧
    (∀ items any, p = .args items → q = .type any →
      (build b p ps).value ≠ (build c q qs).value) ∧
    ∀ base args ret, (build base (.ofNodes args) [.type ret]).value =
      .ok (.applied .callable base (args ++ [ret])) ↔ args ≠ [.nothing] := by
  have hiff : (build b p ps).value = (build c q qs).value ↔
      b = c ∧ canonical p ps = canonical q qs := by
    rw [hm, hn, Except.ok.injEq]
    exact (forms_canonical hm).node_eq_iff (forms_canonical hn)
  refine ⟨hiff, ?_, build_ofNodes_eq_iff⟩
  rintro items any rfl rfl h
  obtain ⟨-, hcanonical⟩ := hiff.mp h
  -- a list stays a list, and a type stays a type
  have hfirst : (if Parameter.args items = .args [.type .nothing] then .args [] else .args items) =
      Parameter.type any := (List.cons.inj hcanonical).1
  split at hfirst <;> cases hfirst

/-- The two collapses together: the bottom type alone in the list and no return type, and an empty
list with the dynamic type spelled out. -/
theorem build_eq_build_iff_bottom :
    canonical (.args [.type .nothing]) [] = canonical (.args []) [.type .anything] ∧
      (build "typing.Callable" (.args [.type .nothing]) []).value =
        (build "typing.Callable" (.args []) [.type .anything]).value := by
  have hm : (build "typing.Callable" (.args [.type .nothing]) []).value = .ok _ := rfl
  have hn : (build "typing.Callable" (.args []) [.type .anything]).value = .ok _ := rfl
  exact ⟨rfl, (build_eq_build_iff hm hn).1.mpr ⟨rfl, rfl⟩⟩

/-! ### The text of what is built -/

/-- A record of the arguments is made only when a generic is built of them. -/
theorem mem_records_ofArguments {base : String} {args : Parameter} {ret : Node} {record : Record}
    (h : record ∈ (ofArguments base args ret).records) :
    ∃ any, record = .unknownArguments base any ret ∧
      (ofArguments base args ret).value = .ok (.applied .generic base [any, ret]) := by
  rcases args with items | any
  · exact absurd h List.not_mem_nil
  · rw [ofArguments] at h ⊢
    split_ifs at h ⊢ with hany
    · exact ⟨any, List.mem_singleton.mp h, rfl⟩
    · exact absurd h List.not_mem_nil

/-- Of the records of building a callable, those at the level of tracing belong to a generic that
was built. -/
theorem exists_of_trace {base : String} {first : Parameter} {more : List Parameter}
    {record : Record} (h : record ∈ (build base first more).records)
    (hlevel : record.level = .trace) :
    ∃ any ret, record = .unknownArguments base any ret ∧
      (build base first more).value = .ok (.applied .generic base [any, ret]) := by
  rcases more with _ | ⟨second, _ | ⟨third, others⟩⟩
  · rcases List.mem_cons.mp h with rfl | h
    · cases hlevel
    · obtain ⟨any, hrecord, hvalue⟩ := mem_records_ofArguments h
      exact ⟨any, .anything, hrecord, hvalue⟩
  · rcases second with items | ret
    · exact absurd h List.not_mem_nil
    · obtain ⟨any, hrecord, hvalue⟩ := mem_records_ofArguments h
      exact ⟨any, ret, hrecord, hvalue⟩
  · cases second <;> exact absurd h List.not_mem_nil

/-- **The text of what is built is the annotation as it was written**: the base, and in brackets the
first parameter and the return type, with the dynamic type where none was given and empty brackets
for a list of the bottom type alone. The record that the arguments are unknown has the same text in
front of what it says. -/
theorem text_of_build (base : String) (first : Parameter) (more : List Parameter) :
    (∀ node, (build base first more).value = .ok node →
      node.text = base ++ "[" ++
        (if first = .args [.type .nothing] then "[]" else first.text) ++ ", " ++
        (more.head?.map Parameter.text).getD "Any" ++ "]") ∧
    ∀ record ∈ (build base first more).records, record.level = .trace →
      ∃ node, (build base first more).value = .ok node ∧
        record.message = node.text ++ " has unknown arguments" := by
  constructor
  · intro node h
    obtain ⟨ret, hret, -⟩ := build_eq_ok_iff.mp h
    have hshown : (more.head?.map Parameter.text).getD "Any" = ret.text := by
      rcases returnType?_eq_some_iff.mp hret with ⟨rfl, rfl⟩ | rfl <;> rfl
    have hfirst : (if first = .args [.type .nothing] then Parameter.args [] else first).text =
        if first = .args [.type .nothing] then "[]" else first.text :=
      apply_ite Parameter.text _ _ _
    rw [(forms_canonical h).text_eq, canonical_eq hret, hshown, List.map_cons, hfirst,
      List.map_singleton, String.intercalate_cons_cons, String.intercalate_singleton]
    simp only [Parameter.text, String.append_assoc]
  · intro record hrecord hlevel
    obtain ⟨any, ret, rfl, hvalue⟩ := exists_of_trace hrecord hlevel
    refine ⟨_, hvalue, ?_⟩
    have hend : "] has unknown arguments" = "]" ++ " has unknown arguments" := rfl
    rw [(Forms.unknown any ret).text_eq, Record.message, hend]
    simp [Parameter.text, String.append_assoc]

/-- The bottom type alone in the list, and a callable as the return type. -/
theorem text_of_build_bottom :
    ∃ node, (build "typing.Callable" (.args [.type .nothing])
        [.type (.applied .callable "f" [.named "int", .anything])]).value = .ok node ∧
      node.text = "typing.Callable[[], f[[int], Any]]" :=
  ⟨_, rfl, ((text_of_build "typing.Callable" (.args [.type .nothing])
    [.type (.applied .callable "f" [.named "int", .anything])]).1 _ rfl).trans rfl⟩

end Callable

end TypeExpr
