import TypeExpr.Proofs.CallableRule

/-!
# Two spellings of one type

The dynamic type is a node of its own and has a name as well, and the type of `None` has two names.
Nodes that differ in nothing but these spellings, at whatever depth, are *alike* (`Node.Alike`).
This is the least congruence in which the two spellings of each type are equal, so whatever is the
same for the two spellings, and does not look into the parameters of an applied base, is the same
for nodes that are alike (`Node.Alike.map_eq`).

No request tells nodes that are alike from each other.

| what a request does with a node | why the spelling does not matter |
|---|---|
| asks a question | the questions go by all spellings |
| copies it | what is built around nodes that are alike is alike |
| compares it with the bottom type | the bottom type has one spelling |
| shows it in an error | the kind of the error stays, and what is wrong with it |

Only in the last place something may change, the text that is shown. In the error for an ellipsis it
does not change either, if the return type is dynamic: that type is shown by one text.

A callable annotation is taken through the table of its cases. Annotations that are alike come to
the same case, and the case gives results that are alike.
-/

namespace TypeExpr

/-- Relations compose along three rows, if they do at each element of the last one. -/
theorem forall₂_trans_of_mem {α : Type} {R : α → α → Prop} {as bs cs : List α}
    (h : List.Forall₂ R as bs) (h' : List.Forall₂ R bs cs)
    (htrans : ∀ c ∈ cs, ∀ a b, R a b → R b c → R a c) : List.Forall₂ R as cs := by
  induction h' generalizing as with
  | nil => exact h
  | @cons b c bs cs hbc _ ih =>
    obtain ⟨a, as, hab, has, rfl⟩ := List.forall₂_cons_right_iff.mp h
    exact .cons (htrans c List.mem_cons_self a b hab hbc)
      (ih has fun c hc => htrans c (List.mem_cons_of_mem _ hc))

namespace Node

/-! ### Nodes that are alike -/

/-- **Nodes that are alike**: they are the same but for the spellings of the dynamic type and of the
type of `None`. -/
inductive Alike : Node → Node → Prop
  | dynamic {m n : Node} : m = anything ∨ m = named "typing.Any" →
    n = anything ∨ n = named "typing.Any" → Alike m n
  | none {m n : Node} : m = named "None" ∨ m = named "NoneType" →
    n = named "None" ∨ n = named "NoneType" → Alike m n
  | named (name : String) : Alike (named name) (named name)
  | nothing : Alike nothing nothing
  | applied {form : Form} {base : String} {ms ns : List Node} : List.Forall₂ Alike ms ns →
    Alike (applied form base ms) (applied form base ns)

/-- **A congruence** that takes the two spellings of the dynamic type for one, and the two names of
the type of `None`. -/
structure Congruence (R : Node → Node → Prop) : Prop where
  equivalence : Equivalence R
  applied : ∀ form base ms ns, List.Forall₂ R ms ns →
    R (applied form base ms) (applied form base ns)
  dynamic : R anything (named "typing.Any")
  none : R (named "None") (named "NoneType")

theorem Alike.refl (node : Node) : Alike node node := by
  induction node with
  | named name => exact .named name
  | applied form base params ih => exact .applied (List.forall₂_same.mpr ih)
  | anything => exact .dynamic (.inl rfl) (.inl rfl)
  | nothing => exact .nothing

theorem Alike.symm {m n : Node} (h : Alike m n) : Alike n m := by
  induction n using induct_params generalizing m with
  | step n ih =>
    cases h with
    | dynamic hm hn => exact .dynamic hn hm
    | none hm hn => exact .none hn hm
    | named name => exact .named name
    | nothing => exact .nothing
    | applied hparams =>
      exact .applied (forall₂_imp_of_mem hparams fun param hparam _ => ih param hparam).flip

theorem Alike.trans {l m n : Node} (h : Alike l m) (h' : Alike m n) : Alike l n := by
  induction n using induct_params generalizing l m with
  | step n ih =>
    cases h' with
    | dynamic hm hn =>
      -- the first two are spellings of the dynamic type as well
      cases h with
      | dynamic hl _ => exact .dynamic hl hn
      | none _ hm' => rcases hm with rfl | rfl <;> simp at hm'
      | named => exact .dynamic hm hn
      | nothing => simp at hm
      | applied => simp at hm
    | none hm hn =>
      cases h with
      | dynamic _ hm' => rcases hm with rfl | rfl <;> simp at hm'
      | none hl _ => exact .none hl hn
      | named => exact .none hm hn
      | nothing => simp at hm
      | applied => simp at hm
    | named => exact h
    | nothing => exact h
    | applied hparams' =>
      cases h with
      | dynamic _ hm => simp at hm
      | none _ hm => simp at hm
      | applied hparams =>
        exact .applied (forall₂_trans_of_mem hparams hparams' fun param hparam _ _ => ih param hparam)

theorem congruence_alike : Congruence Alike where
  equivalence := ⟨Alike.refl, Alike.symm, Alike.trans⟩
  applied := fun _ _ _ _ => .applied
  dynamic := .dynamic (.inl rfl) (.inr rfl)
  none := .none (.inl rfl) (.inr rfl)

/-- Every congruence relates nodes that are alike. -/
theorem Congruence.of_alike {R : Node → Node → Prop} (hR : Congruence R) {m n : Node}
    (h : Alike m n) : R m n := by
  induction n using induct_params generalizing m with
  | step n ih =>
    cases h with
    | dynamic hm hn =>
      rcases hm with rfl | rfl <;> rcases hn with rfl | rfl
      · exact hR.equivalence.refl _
      · exact hR.dynamic
      · exact hR.equivalence.symm hR.dynamic
      · exact hR.equivalence.refl _
    | none hm hn =>
      rcases hm with rfl | rfl <;> rcases hn with rfl | rfl
      · exact hR.equivalence.refl _
      · exact hR.none
      · exact hR.equivalence.symm hR.none
      · exact hR.equivalence.refl _
    | named name => exact hR.equivalence.refl _
    | nothing => exact hR.equivalence.refl _
    | applied hparams =>
      exact hR.applied _ _ _ _ (forall₂_imp_of_mem hparams fun param hparam _ => ih param hparam)

/-- **The least congruence** relates the nodes that are alike, and no others. -/
theorem alike_iff_forall_congruence {m n : Node} :
    Alike m n ↔ ∀ R, Congruence R → R m n :=
  ⟨fun h _ hR => hR.of_alike h, fun h => h Alike congruence_alike⟩

/-! ### What does not depend on the spelling -/

/-- **What is the same for both spellings**, and does not look into parameters, is the same for nodes
that are alike. -/
theorem Alike.map_eq {α : Type} {f : Node → α} {m n : Node} (h : Alike m n)
    (happlied : ∀ form base ms ns, f (.applied form base ms) = f (.applied form base ns))
    (hdynamic : f .anything = f (.named "typing.Any"))
    (hnone : f (.named "None") = f (.named "NoneType")) : f m = f n := by
  have hcongruence : Congruence fun m n => f m = f n :=
    ⟨⟨fun _ => rfl, Eq.symm, Eq.trans⟩, fun form base ms ns _ => happlied form base ms ns, hdynamic,
      hnone⟩
  exact hcongruence.of_alike h

section Questions

variable {m n : Node} (h : Alike m n)

include h

theorem Alike.isAny_eq : m.isAny = n.isAny :=
  h.map_eq (fun _ _ _ _ => rfl) (by decide) (by decide)

theorem Alike.isNone_eq : m.isNone = n.isNone :=
  h.map_eq (fun _ _ _ _ => rfl) (by decide) (by decide)

theorem Alike.isString_eq : m.isString = n.isString :=
  h.map_eq (fun _ _ _ _ => rfl) (by decide) (by decide)

theorem Alike.dynamic_iff :
    m = .anything ∨ m = .named "typing.Any" ↔ n = .anything ∨ n = .named "typing.Any" := by
  rw [← isAny_iff, ← isAny_iff, h.isAny_eq]

/-- The bottom type has one spelling. -/
theorem Alike.eq_nothing_iff : m = .nothing ↔ n = .nothing := by
  have hdecide : decide (m = .nothing) = decide (n = .nothing) :=
    h.map_eq (f := fun node => decide (node = .nothing)) (fun _ _ _ _ => by simp) (by decide)
      (by decide)
  simpa using hdecide

end Questions

end Node

/-! ### Requests that are alike -/

/-- **Argument items that are alike.** -/
inductive Argument.Alike : Argument → Argument → Prop
  | type {m n : Node} : m.Alike n → Alike (type m) (type n)
  | ellipsis : Alike ellipsis ellipsis

/-- **Parameters that are alike.** -/
inductive Parameter.Alike : Parameter → Parameter → Prop
  | args {items others : List Argument} : List.Forall₂ Argument.Alike items others →
    Alike (args items) (args others)
  | type {m n : Node} : m.Alike n → Alike (type m) (type n)

/-- A list with an ellipsis is like no list without one. -/
theorem Argument.ellipsis_mem_of_alike {items others : List Argument}
    (h : List.Forall₂ Alike items others) (hmem : ellipsis ∈ items) : ellipsis ∈ others := by
  induction h with
  | nil => exact hmem
  | @cons item other items others hfirst _ ih =>
    rcases List.mem_cons.mp hmem with rfl | hmem
    · cases hfirst
      exact List.mem_cons_self
    · exact List.mem_cons_of_mem _ (ih hmem)

/-- A list of types is like lists of types only. -/
theorem Argument.exists_of_map_type_alike {nodes : List Node} {others : List Argument}
    (h : List.Forall₂ Alike (nodes.map .type) others) :
    ∃ ns, others = ns.map .type ∧ List.Forall₂ Node.Alike nodes ns := by
  induction nodes generalizing others with
  | nil => exact ⟨[], List.forall₂_nil_left_iff.mp h, .nil⟩
  | cons node nodes ih =>
    obtain ⟨other, rest, hfirst, hrest, rfl⟩ := List.forall₂_cons_left_iff.mp h
    obtain ⟨ns, rfl, hns⟩ := ih hrest
    cases hfirst with
    | type hnode => exact ⟨_ :: ns, rfl, .cons hnode hns⟩

/-- The bottom type alone in a list is like itself only. -/
theorem Node.eq_singleton_nothing_of_alike {ms ns : List Node} (h : List.Forall₂ Alike ms ns)
    (hns : ns = [nothing]) : ms = [nothing] := by
  subst hns
  obtain ⟨m, rest, hm, hrest, rfl⟩ := List.forall₂_cons_right_iff.mp h
  obtain rfl := List.forall₂_nil_right_iff.mp hrest
  rw [hm.eq_nothing_iff.mpr rfl]

namespace Request

/-- **Requests that are alike**: they are for the same operation, with the same names and bases, and
with nodes that are alike. -/
inductive Alike : Request → Request → Prop
  | list (name : String) : Alike (list name) (list name)
  | typeOf {m n : Node} : m.Alike n → Alike (typeOf m) (typeOf n)
  | tuple (base : String) {ms ns : List Node} : List.Forall₂ Node.Alike ms ns →
    Alike (tuple base ms) (tuple base ns)
  | callable (base : String) {ps qs : List Parameter} : List.Forall₂ Parameter.Alike ps qs →
    Alike (callable base ps) (callable base qs)
  | isAny {m n : Node} : m.Alike n → Alike (isAny m) (isAny n)
  | isNone {m n : Node} : m.Alike n → Alike (isNone m) (isNone n)
  | isString {m n : Node} : m.Alike n → Alike (isString m) (isString n)

/-- **Evaluations that agree**: both succeed, with nodes that are alike or with the same flag, or
both fail in the same way. -/
inductive Agree : Except Failure Outcome → Except Failure Outcome → Prop
  | node {m n : Node} : m.Alike n → Agree (.ok (.node m)) (.ok (.node n))
  | flag (value : Bool) : Agree (.ok (.flag value)) (.ok (.flag value))
  | arity (count : Nat) :
    Agree (.error (.rejected (.arity count))) (.error (.rejected (.arity count)))
  | shape (message other : String) :
    Agree (.error (.rejected (.shape message))) (.error (.rejected (.shape other)))
  | firstArgument (got other : String) :
    Agree (.error (.rejected (.firstArgument got))) (.error (.rejected (.firstArgument other)))
  | noParameters : Agree (.error .noParameters) (.error .noParameters)

end Request

namespace Callable

open Request (Agree ofBuilt)

variable {base : String}

/-- **Arguments that are alike come to the same case**, with results that agree. -/
theorem ArgumentsYield.exists_of_alike {args others : Parameter} {ret ret' : Node}
    {result : Except CallableError Node} (h : ArgumentsYield base ret args result)
    (hargs : args.Alike others) (hret : ret.Alike ret') :
    ∃ result', ArgumentsYield base ret' others result' ∧
      Agree (ofBuilt result) (ofBuilt result') := by
  have hlast : List.Forall₂ Node.Alike [ret] [ret'] := .cons hret .nil
  cases h with
  | ellipsis hmem =>
    cases hargs with
    | args hitems =>
      exact ⟨_, .ellipsis (Argument.ellipsis_mem_of_alike hitems hmem), .shape _ _⟩
  | bottom =>
    cases hargs with
    | args hitems =>
      obtain ⟨ns, rfl, hns⟩ := @Argument.exists_of_map_type_alike [.nothing] _ hitems
      obtain ⟨n, rest, hn, hrest, rfl⟩ := List.forall₂_cons_left_iff.mp hns
      obtain rfl := List.forall₂_nil_left_iff.mp hrest
      obtain rfl := hn.eq_nothing_iff.mp rfl
      exact ⟨_, .bottom, .node (.applied hlast)⟩
  | types hne =>
    cases hargs with
    | args hitems =>
      obtain ⟨ns, rfl, hns⟩ := Argument.exists_of_map_type_alike hitems
      refine ⟨_, .types fun hbottom => hne ?_, .node (.applied (List.rel_append hns hlast))⟩
      exact Node.eq_singleton_nothing_of_alike hns hbottom
  | unknown hany =>
    cases hargs with
    | type hnode =>
      exact ⟨_, .unknown (hnode.dynamic_iff.mp hany), .node (.applied (.cons hnode hlast))⟩
  | single hnot =>
    cases hargs with
    | type hnode => exact ⟨_, .single (mt hnode.dynamic_iff.mpr hnot), .firstArgument _ _⟩

/-- **Annotations that are alike come to the same case**, with results that agree. -/
theorem Yields.exists_of_alike {first other : Parameter} {more others : List Parameter}
    {result : Except CallableError Node} (h : Yields base first more result)
    (hfirst : first.Alike other) (hmore : List.Forall₂ Parameter.Alike more others) :
    ∃ result', Yields base other others result' ∧ Agree (ofBuilt result) (ofBuilt result') := by
  cases h with
  | arity hlength =>
    have hcount : (first :: more).length = (other :: others).length := by
      rw [List.length_cons, List.length_cons, hmore.length_eq]
    rw [hcount] at hlength ⊢
    exact ⟨_, .arity hlength, .arity _⟩
  | returnIsList =>
    obtain ⟨ret, rest, hret, hrest, rfl⟩ := List.forall₂_cons_left_iff.mp hmore
    obtain rfl := List.forall₂_nil_left_iff.mp hrest
    cases hret with
    | args => exact ⟨_, .returnIsList, .shape _ _⟩
  | missingReturn harguments =>
    obtain rfl := List.forall₂_nil_left_iff.mp hmore
    obtain ⟨result', hresult, hagree⟩ := harguments.exists_of_alike hfirst (.refl _)
    exact ⟨result', .missingReturn hresult, hagree⟩
  | arguments harguments =>
    obtain ⟨ret, rest, hret, hrest, rfl⟩ := List.forall₂_cons_left_iff.mp hmore
    obtain rfl := List.forall₂_nil_left_iff.mp hrest
    cases hret with
    | type hnode =>
      obtain ⟨result', hresult, hagree⟩ := harguments.exists_of_alike hfirst hnode
      exact ⟨result', .arguments hresult, hagree⟩

end Callable

namespace Request

/-- The evaluations of requests that are alike agree. -/
theorem Alike.agree_evaluate {r s : Request} (h : r.Alike s) :
    Agree r.evaluate.value s.evaluate.value := by
  cases h with
  | list name => exact .node (.refl _)
  | typeOf hnode => exact .node (.applied (.cons hnode .nil))
  | tuple base hnodes => exact .node (.applied hnodes)
  | callable base hparams =>
    cases hparams with
    | nil => exact .noParameters
    | @cons first other more others hfirst hmore =>
      obtain ⟨result, hresult, hagree⟩ :=
        (Callable.yields_build base first more).exists_of_alike hfirst hmore
      rw [← hresult.build_eq] at hagree
      exact hagree
  | @isAny m n hnode =>
    change Agree (.ok (.flag m.isAny)) (.ok (.flag n.isAny))
    rw [hnode.isAny_eq]
    exact .flag _
  | @isNone m n hnode =>
    change Agree (.ok (.flag m.isNone)) (.ok (.flag n.isNone))
    rw [hnode.isNone_eq]
    exact .flag _
  | @isString m n hnode =>
    change Agree (.ok (.flag m.isString)) (.ok (.flag n.isString))
    rw [hnode.isString_eq]
    exact .flag _

/-- An ellipsis among the arguments of a callable whose return type is dynamic, or missing. -/
inductive MisusesEllipsis : Request → Prop
  | mk {base : String} {items : List Argument} {more : List Parameter} {ret : Node} :
    .ellipsis ∈ items → Callable.returnType? more = some ret →
    ret = .anything ∨ ret = .named "typing.Any" →
      MisusesEllipsis (callable base (.args items :: more))

/-- **A misused ellipsis** in front of a dynamic return type has one error. -/
theorem MisusesEllipsis.evaluate_eq {request : Request} (h : request.MisusesEllipsis) :
    request.evaluate.value = .error (.rejected
      (.shape "Invalid Callable args, did you mean Callable[..., Any]?")) := by
  obtain ⟨hmem, hret, hdynamic⟩ := h
  rename_i base items more ret
  have harguments : Callable.ArgumentsYield base ret (.args items) _ := .ellipsis hmem
  rw [if_pos hdynamic] at harguments
  have hyields : Callable.Yields base (.args items) more
      (.error (.shape ("Invalid Callable args, did you mean Callable[..., " ++ "Any" ++ "]?"))) := by
    rcases Callable.returnType?_eq_some_iff.mp hret with ⟨rfl, rfl⟩ | rfl
    · exact .missingReturn harguments
    · exact .arguments harguments
  change ofBuilt (Callable.build base (.args items) more).value = _
  rw [hyields.build_eq]
  rfl

theorem Alike.misusesEllipsis {r s : Request} (h : r.Alike s) (hr : r.MisusesEllipsis) :
    s.MisusesEllipsis := by
  obtain ⟨hmem, hret, hdynamic⟩ := hr
  obtain _ | _ | _ | ⟨base, hparams⟩ := h
  obtain ⟨other, others, hfirst, hmore, rfl⟩ := List.forall₂_cons_left_iff.mp hparams
  cases hfirst with
  | args hitems =>
    have hmem := Argument.ellipsis_mem_of_alike hitems hmem
    rcases Callable.returnType?_eq_some_iff.mp hret with ⟨rfl, rfl⟩ | rfl
    · obtain rfl := List.forall₂_nil_left_iff.mp hmore
      exact .mk hmem rfl (.inl rfl)
    · obtain ⟨ret, rest, hret, hrest, rfl⟩ := List.forall₂_cons_left_iff.mp hmore
      obtain rfl := List.forall₂_nil_left_iff.mp hrest
      cases hret with
      | type hnode => exact .mk hmem rfl (hnode.dynamic_iff.mp hdynamic)

/-- **The spellings of a type may be exchanged.** The nodes that are alike are those related by the
least congruence in which the two spellings of the dynamic type are equal, and the two names of the
type of `None`. Requests that are alike both have an outcome or both fail. Their outcomes are nodes
that are alike or the same flag, and their failures are of the same kind, with the same count if it
is the number of parameters that is wrong. An ellipsis in front of a dynamic return type is refused
with the same message in both. -/
theorem evaluate_alike :
    (∀ m n : Node, m.Alike n ↔ ∀ R, Node.Congruence R → R m n) ∧
    ∀ r s : Request, r.Alike s →
      Agree r.evaluate.value s.evaluate.value ∧
      (r.MisusesEllipsis → s.MisusesEllipsis ∧ ∀ request ∈ [r, s],
        request.evaluate.value = .error (.rejected
          (.shape "Invalid Callable args, did you mean Callable[..., Any]?"))) := by
  refine ⟨fun m n => Node.alike_iff_forall_congruence, fun r s h => ⟨h.agree_evaluate, ?_⟩⟩
  intro hr
  have hs := h.misusesEllipsis hr
  refine ⟨hs, List.forall_mem_cons.mpr ⟨hr.evaluate_eq, ?_⟩⟩
  exact List.forall_mem_singleton.mpr hs.evaluate_eq

/-- The type of `None` under its other name in the list, and the dynamic type under its name in the
place of the return type. -/
theorem evaluate_alike_ellipsis :
    (callable "typing.Callable" [.args [.type (.applied .tuple "tuple" [.named "NoneType"]),
      .ellipsis], .type (.named "typing.Any")]).evaluate.value = .error (.rejected
        (.shape "Invalid Callable args, did you mean Callable[..., Any]?")) := by
  have hnone : Node.Alike (.applied .tuple "tuple" [.named "None"])
      (.applied .tuple "tuple" [.named "NoneType"]) :=
    .applied (.cons (.none (.inl rfl) (.inr rfl)) .nil)
  have hlist := List.Forall₂.cons (Argument.Alike.type hnone) (.cons .ellipsis .nil)
  have hret : Node.Alike .anything (.named "typing.Any") := .dynamic (.inl rfl) (.inr rfl)
  have halike : Alike (callable "typing.Callable" _) (callable "typing.Callable" _) :=
    .callable _ (.cons (.args hlist) (.cons (.type hret) .nil))
  have hmisuse := (evaluate_alike.2 _ _ halike).2 (.mk (by simp) rfl (.inl rfl))
  exact hmisuse.2 _ (List.mem_cons_of_mem _ List.mem_cons_self)

end Request

end TypeExpr
