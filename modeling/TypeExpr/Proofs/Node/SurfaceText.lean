import TypeExpr.Parameter
import TypeExpr.Proofs.Node.Tree
import TypeExpr.Proofs.Text.Parts

/-!
# What can be read off a surface text

The surface text of a node is a row of names, set apart by brackets and commas. It can be read
back only if no name in it could be taken for a part of that structure. So every name and every
base has to be *proper*: not empty, and without a bracket and without a comma. Fully qualified
names are.

Some differences between nodes do not show at all.

| in the node | reads like |
|---|---|
| a tuple | a generic |
| the dynamic type | the name `Any` |
| the bottom type | the name `nothing` |
| a callable without parameters | a generic without parameters |

The node with each of them replaced, at any depth, is the *apparent* node (`Node.apparent`). Two
nodes with proper names have the same text if and only if they have the same apparent node, so
nothing else is lost.

The text of a parameter has other texts behind it, and the induction has to allow for them. What
stands behind a parameter is a comma or a closing bracket, never an opening one. That is what
tells where a name ends, and that it was a name and no base.
-/

namespace TypeExpr

/-! ### Texts with brackets -/

theorem Parameter.text_ofNodes (nodes : List Node) :
    (ofNodes nodes).text = "[" ++ ", ".intercalate (nodes.map Node.text) ++ "]" := by
  have htexts : (nodes.map Argument.type).map Argument.text = nodes.map Node.text := by
    rw [List.map_map]
    rfl
  rw [ofNodes, text, htexts]

namespace Node

/-- The texts of nodes, each behind a comma. -/
def furtherTexts (nodes : List Node) : List Char :=
  nodes.flatMap fun node => ',' :: ' ' :: node.text.toList

/-- The texts of nodes, with commas between them. -/
def listing : List Node → List Char
  | [] => []
  | node :: nodes => node.text.toList ++ furtherTexts nodes

theorem furtherTexts_cons (node : Node) (nodes : List Node) :
    furtherTexts (node :: nodes) = ',' :: ' ' :: listing (node :: nodes) :=
  rfl

theorem toList_intercalate_texts (nodes : List Node) :
    (", ".intercalate (nodes.map text)).toList = listing nodes := by
  cases nodes with
  | nil => rfl
  | cons node nodes =>
    rw [listing]
    induction nodes generalizing node with
    | nil => simp [furtherTexts]
    | cons next nodes ih =>
      rw [List.map_cons, List.map_cons, String.intercalate_cons_cons, ← List.map_cons,
        String.toList_append, ih]
      simp [furtherTexts]

/-- **The text of a callable** shows its arguments like an argument list. -/
theorem text_callable (base : String) (args : List Node) (ret : Node) :
    (applied .callable base (args ++ [ret])).text =
      base ++ "[" ++ (Parameter.ofNodes args).text ++ ", " ++ ret.text ++ "]" := by
  rw [text, texts_eq_map, Form.bracketed, List.map_append, List.map_singleton,
    List.getLast?_concat, List.dropLast_concat, Parameter.text_ofNodes]
  apply String.toList_inj.mp
  simp

/-- The text of every other applied base has one pair of brackets around the parameters. -/
theorem text_applied {form : Form} {params : List Node} (h : form = .callable → params = [])
    (base : String) :
    (applied form base params).text = base ++ "[" ++ ", ".intercalate (params.map text) ++ "]" := by
  rw [text, texts_eq_map]
  cases form with
  | callable =>
    obtain rfl := h rfl
    apply String.toList_inj.mp
    simp [Form.bracketed]
  | generic | tuple => rfl

theorem toList_text_callable (base : String) (args : List Node) (ret : Node) :
    (applied .callable base (args ++ [ret])).text.toList = base.toList ++ '[' :: '[' ::
      (listing args ++ ']' :: ',' :: ' ' :: (ret.text.toList ++ [']'])) := by
  rw [text_callable, Parameter.text_ofNodes, ← toList_intercalate_texts]
  simp

theorem toList_text_applied {form : Form} {params : List Node}
    (h : form = .callable → params = []) (base : String) :
    (applied form base params).text.toList = base.toList ++ '[' :: (listing params ++ [']']) := by
  rw [text_applied h, ← toList_intercalate_texts]
  simp

/-- An applied base sets its last parameter apart, or has all of them in one pair of brackets. -/
theorem callable_concat_or (form : Form) (params : List Node) :
    (∃ args ret, form = .callable ∧ params = args ++ [ret]) ∨ (form = .callable → params = []) := by
  rcases params.eq_nil_or_concat with rfl | ⟨args, ret, rfl⟩
  · exact Or.inr fun _ => rfl
  · by_cases hform : form = .callable
    · exact Or.inl ⟨args, ret, hform, List.concat_eq_append⟩
    · exact Or.inr fun h => absurd h hform

/-- Behind a base there is an opening bracket. -/
theorem exists_toList_text_applied (form : Form) (base : String) (params : List Node) :
    ∃ rest, (applied form base params).text.toList = base.toList ++ '[' :: rest := by
  rcases callable_concat_or form params with ⟨args, ret, rfl, rfl⟩ | h
  · exact ⟨_, toList_text_callable base args ret⟩
  · exact ⟨_, toList_text_applied h base⟩

end Node

/-! ### The apparent node -/

/-- The form that a text shows. Only a callable with parameters shows that it is one. -/
def Form.apparent : Form → (params : List Node) → Form
  | .callable, _ :: _ => .callable
  | _, _ => .generic

namespace Node

mutual

/-- **The apparent node**, which is all that the text of a node shows of it. -/
def apparent : Node → Node
  | named name => named name
  | applied form base params => applied (form.apparent params) base (apparents params)
  | anything => named "Any"
  | nothing => named "nothing"

/-- The apparent nodes of a list. -/
def apparents : List Node → List Node
  | [] => []
  | node :: nodes => node.apparent :: apparents nodes

end

@[simp]
theorem apparents_eq_map (nodes : List Node) : apparents nodes = nodes.map apparent := by
  induction nodes with
  | nil => rfl
  | cons node nodes ih => rw [apparents, ih, List.map_cons]

theorem apparent_applied {form : Form} {params : List Node} (h : form = .callable → params = [])
    (base : String) :
    (applied form base params).apparent = applied .generic base (params.map apparent) := by
  rw [apparent, apparents_eq_map]
  cases form with
  | callable =>
    obtain rfl := h rfl
    rfl
  | generic | tuple => rfl

theorem apparent_callable (base : String) (args : List Node) (ret : Node) :
    (applied .callable base (args ++ [ret])).apparent =
      applied .callable base (args.map apparent ++ [ret.apparent]) := by
  rw [apparent, apparents_eq_map, List.map_append, List.map_singleton]
  cases args <;> rfl

/-- **The apparent node has the text of the node.** -/
theorem text_apparent (node : Node) : node.apparent.text = node.text := by
  induction node with
  | named name => rfl
  | applied form base params ih =>
    have htexts : (params.map apparent).map text = params.map text := by
      rw [List.map_map]
      exact List.map_congr_left ih
    rcases callable_concat_or form params with ⟨args, ret, rfl, rfl⟩ | h
    · rw [List.map_append, List.map_append, List.map_append] at htexts
      obtain ⟨hargs, hret⟩ := List.append_inj' htexts rfl
      rw [apparent_callable, text_callable, text_callable, Parameter.text_ofNodes,
        Parameter.text_ofNodes, hargs, (List.cons.inj hret).1]
    · have hgeneric : Form.generic = .callable → params.map apparent = [] := nofun
      rw [apparent_applied h, text_applied hgeneric, text_applied h, htexts]
  | anything => rfl
  | nothing => rfl

end Node

/-! ### Proper names -/

/-- The characters that give a surface text its structure. -/
def IsMark (c : Char) : Prop :=
  c = '[' ∨ c = ']' ∨ c = ','

/-- **A proper name**: it is not empty, and none of its characters could be taken for a part of the
structure around it. -/
def IsProperName (name : String) : Prop :=
  name ≠ "" ∧ ∀ c ∈ name.toList, ¬IsMark c

instance : DecidablePred IsMark := fun c => inferInstanceAs (Decidable (c = '[' ∨ _))

instance : DecidablePred IsProperName := fun name =>
  decidable_of_iff (name ≠ "" ∧ name.toList.all (fun c => !decide (IsMark c)) = true)
    (by simp [IsProperName])

/-- A text that begins with a mark, or is at its end. -/
def BeginsWithMark (rest : List Char) : Prop :=
  ∀ c ∈ rest.head?, IsMark c

/-- What may stand behind the text of a node: nothing, a comma or a closing bracket. -/
def EndsNode (rest : List Char) : Prop :=
  ∀ c ∈ rest.head?, c = ']' ∨ c = ','

theorem EndsNode.beginsWithMark {rest : List Char} (h : EndsNode rest) : BeginsWithMark rest :=
  fun c hc => Or.inr (h c hc)

theorem beginsWithMark_open (rest : List Char) : BeginsWithMark ('[' :: rest) := by
  rintro _ ⟨⟩
  exact Or.inl rfl

theorem endsNode_nil : EndsNode [] := nofun

theorem endsNode_close (rest : List Char) : EndsNode (']' :: rest) := by
  rintro _ ⟨⟩
  exact Or.inl rfl

theorem endsNode_comma (rest : List Char) : EndsNode (',' :: rest) := by
  rintro _ ⟨⟩
  exact Or.inr rfl

/-- **A proper name ends at the first mark.** -/
theorem name_append_inj {name other : String} {r s : List Char} (hname : IsProperName name)
    (hother : IsProperName other) (hr : BeginsWithMark r) (hs : BeginsWithMark s)
    (h : name.toList ++ r = other.toList ++ s) : name = other ∧ r = s := by
  obtain ⟨hnames, hrest⟩ := Text.append_inj_of_stops IsMark hname.2 hother.2 hr hs h
  exact ⟨String.toList_inj.mp hnames, hrest⟩

namespace Node

/-- **A node with proper names**: all its names and bases, at any depth, are proper. -/
inductive WellNamed : Node → Prop
  | named {name : String} : IsProperName name → WellNamed (named name)
  | applied {form : Form} {base : String} {params : List Node} : IsProperName base →
    (∀ param ∈ params, WellNamed param) → WellNamed (applied form base params)
  | anything : WellNamed anything
  | nothing : WellNamed nothing

/-! ### Reading a text back -/

/-- A text begins with a name. -/
theorem WellNamed.exists_name {node : Node} (h : node.WellNamed) :
    ∃ name rest, IsProperName name ∧ node.text.toList = name.toList ++ rest := by
  cases h with
  | @named name hname => exact ⟨name, [], hname, (List.append_nil _).symm⟩
  | @applied form base params hbase _ =>
    obtain ⟨rest, htext⟩ := exists_toList_text_applied form base params
    exact ⟨base, _, hbase, htext⟩
  | anything => exact ⟨"Any", [], by decide, rfl⟩
  | nothing => exact ⟨"nothing", [], by decide, rfl⟩

/-- A text does not begin with a mark. -/
theorem WellNamed.text_append_ne {node : Node} (h : node.WellNamed) {c : Char} (hc : IsMark c)
    (r s : List Char) : node.text.toList ++ r ≠ c :: s := by
  obtain ⟨name, rest, hname, htext⟩ := h.exists_name
  rw [htext]
  cases hcs : name.toList with
  | nil => exact absurd (String.toList_inj.mp hcs) hname.1
  | cons d cs =>
    intro heq
    obtain rfl : d = c := (List.cons.inj heq).1
    exact hname.2 d (hcs ▸ List.mem_cons_self) hc

/-- The only mark that parameters and the bracket behind them can begin with is this bracket, if
there are no parameters. -/
theorem eq_nil_of_listing {params : List Node} (hparams : ∀ param ∈ params, param.WellNamed)
    {c : Char} (hc : IsMark c) {r s : List Char} (h : listing params ++ ']' :: r = c :: s) :
    params = [] ∧ c = ']' ∧ r = s := by
  cases params with
  | nil =>
    obtain ⟨rfl, rfl⟩ := List.cons.inj h
    exact ⟨rfl, rfl, rfl⟩
  | cons param params =>
    rw [listing, List.append_assoc] at h
    exact absurd h ((hparams param List.mem_cons_self).text_append_ne hc _ _)

/-- **A text that reads in one way only**, whatever ends it. -/
def ReadsBack (m : Node) : Prop :=
  ∀ {n : Node} {r s : List Char}, n.WellNamed → EndsNode r → EndsNode s →
    m.text.toList ++ r = n.text.toList ++ s → m.apparent = n.apparent ∧ r = s

/-- **A name reads back.** -/
theorem readsBack_of_name {m : Node} {name : String} (hname : IsProperName name)
    (htext : m.text = name) (hnamed : m.apparent = named name) : m.ReadsBack := by
  intro n r s hn hr hs h
  rw [htext] at h
  rw [hnamed]
  have hleaf {other : String} (hother : IsProperName other)
      (h : name.toList ++ r = other.toList ++ s) : named name = named other ∧ r = s := by
    obtain ⟨rfl, rfl⟩ := name_append_inj hname hother hr.beginsWithMark hs.beginsWithMark h
    exact ⟨rfl, rfl⟩
  cases hn with
  | named hother => exact hleaf hother h
  | @applied form base params hbase _ =>
    -- the bracket behind the base would have to end the name
    obtain ⟨rest, hrest⟩ := exists_toList_text_applied form base params
    rw [hrest, List.append_assoc] at h
    obtain ⟨-, rfl⟩ := name_append_inj hname hbase hr.beginsWithMark (beginsWithMark_open _) h
    exact absurd (hr '[' rfl) (by decide)
  | anything => exact hleaf (by decide) h
  | nothing => exact hleaf (by decide) h

/-- Behind the text of a parameter there is the comma of the next one, or the closing bracket. -/
theorem endsNode_furtherTexts (nodes : List Node) (rest : List Char) :
    EndsNode (furtherTexts nodes ++ ']' :: rest) := by
  cases nodes with
  | nil => exact endsNode_close rest
  | cons node nodes => exact endsNode_comma _

/-- Further parameters read back, if each of them does. -/
theorem map_apparent_eq_of_furtherTexts {ms ns : List Node} {r s : List Char}
    (hread : ∀ m ∈ ms, m.ReadsBack) (hns : ∀ n ∈ ns, n.WellNamed)
    (h : furtherTexts ms ++ ']' :: r = furtherTexts ns ++ ']' :: s) :
    ms.map apparent = ns.map apparent ∧ r = s := by
  induction ms generalizing ns with
  | nil =>
    cases ns with
    | nil => exact ⟨rfl, (List.cons.inj h).2⟩
    | cons n ns => exact absurd (List.cons.inj h).1 (by decide)
  | cons m ms ih =>
    cases ns with
    | nil => exact absurd (List.cons.inj h).1 (by decide)
    | cons n ns =>
      rw [List.forall_mem_cons] at hread hns
      have htexts : m.text.toList ++ (furtherTexts ms ++ ']' :: r) =
          n.text.toList ++ (furtherTexts ns ++ ']' :: s) := by
        simpa [furtherTexts_cons, listing] using h
      obtain ⟨happarent, hrest⟩ :=
        hread.1 hns.1 (endsNode_furtherTexts ms r) (endsNode_furtherTexts ns s) htexts
      obtain ⟨hmap, hend⟩ := ih hread.2 hns.2 hrest
      exact ⟨by rw [List.map_cons, List.map_cons, happarent, hmap], hend⟩

/-- **Parameters read back** up to the bracket that closes them, if each of them does. -/
theorem map_apparent_eq_of_listing {ms ns : List Node} {r s : List Char}
    (hread : ∀ m ∈ ms, m.ReadsBack) (hms : ∀ m ∈ ms, m.WellNamed) (hns : ∀ n ∈ ns, n.WellNamed)
    (h : listing ms ++ ']' :: r = listing ns ++ ']' :: s) :
    ms.map apparent = ns.map apparent ∧ r = s := by
  cases ms with
  | nil =>
    obtain ⟨rfl, -, rfl⟩ := eq_nil_of_listing hns (by decide) h.symm
    exact ⟨rfl, rfl⟩
  | cons m ms =>
    cases ns with
    | nil =>
      obtain ⟨hnil, -, rfl⟩ := eq_nil_of_listing hms (by decide) h
      cases hnil
    | cons n ns =>
      refine map_apparent_eq_of_furtherTexts hread hns ?_
      rw [furtherTexts_cons, furtherTexts_cons, List.cons_append, List.cons_append,
        List.cons_append, List.cons_append, h]

/-- An argument list that is set apart shows at its opening bracket. -/
theorem text_callable_append_ne {form : Form} {base : String} {args params : List Node}
    {ret : Node} (hform : form = .callable → params = [])
    (hparams : ∀ param ∈ params, param.WellNamed) (r s : List Char) :
    (applied form base params).text.toList ++ r ≠
      (applied .callable base (args ++ [ret])).text.toList ++ s := by
  intro h
  rw [toList_text_applied hform, toList_text_callable] at h
  have hbody : listing params ++ ']' :: r =
      '[' :: (listing args ++ ']' :: ',' :: ' ' :: (ret.text.toList ++ ']' :: s)) := by
    simpa using h
  exact absurd (eq_nil_of_listing hparams (by decide) hbody).2.1 (by decide)

/-- A callable reads back: the arguments up to the bracket of their own, and then the return
type. -/
theorem apparent_callable_eq {base : String} {args args' : List Node} {ret ret' : Node}
    {r s : List Char} (hread : ∀ m ∈ args ++ [ret], m.ReadsBack)
    (hms : ∀ m ∈ args ++ [ret], m.WellNamed) (hns : ∀ n ∈ args' ++ [ret'], n.WellNamed)
    (h : (applied .callable base (args ++ [ret])).text.toList ++ r =
      (applied .callable base (args' ++ [ret'])).text.toList ++ s) :
    (applied .callable base (args ++ [ret])).apparent =
      (applied .callable base (args' ++ [ret'])).apparent ∧ r = s := by
  rw [toList_text_callable, toList_text_callable] at h
  rw [List.forall_mem_append] at hread hms hns
  have hbody : listing args ++ ']' :: ',' :: ' ' :: (ret.text.toList ++ ']' :: r) =
      listing args' ++ ']' :: ',' :: ' ' :: (ret'.text.toList ++ ']' :: s) := by
    simpa using h
  obtain ⟨hargs, hrest⟩ := map_apparent_eq_of_listing hread.1 hms.1 hns.1 hbody
  have hlast : ret.text.toList ++ ']' :: r = ret'.text.toList ++ ']' :: s := by
    simpa using hrest
  obtain ⟨hret, hend⟩ := hread.2 ret (List.mem_singleton_self _)
    (hns.2 ret' (List.mem_singleton_self _)) (endsNode_close r) (endsNode_close s) hlast
  rw [apparent_callable, apparent_callable, hargs, hret]
  exact ⟨rfl, (List.cons.inj hend).2⟩

/-- **Brackets read back** around parameters that do. -/
theorem apparent_applied_eq {form form' : Form} {base : String} {ms ns : List Node}
    {r s : List Char} (hread : ∀ m ∈ ms, m.ReadsBack) (hms : ∀ m ∈ ms, m.WellNamed)
    (hns : ∀ n ∈ ns, n.WellNamed)
    (h : (applied form base ms).text.toList ++ r = (applied form' base ns).text.toList ++ s) :
    (applied form base ms).apparent = (applied form' base ns).apparent ∧ r = s := by
  rcases callable_concat_or form ms with ⟨args, ret, rfl, rfl⟩ | hform
  · rcases callable_concat_or form' ns with ⟨args', ret', rfl, rfl⟩ | hform'
    · exact apparent_callable_eq hread hms hns h
    · exact absurd h.symm (text_callable_append_ne hform' hns s r)
  · rcases callable_concat_or form' ns with ⟨args', ret', rfl, rfl⟩ | hform'
    · exact absurd h (text_callable_append_ne hform hms r s)
    · rw [toList_text_applied hform, toList_text_applied hform'] at h
      obtain ⟨hparams, hrest⟩ := map_apparent_eq_of_listing hread hms hns (by simpa using h)
      rw [apparent_applied hform, apparent_applied hform', hparams]
      exact ⟨rfl, hrest⟩

/-- **The text of a node with proper names reads back.** -/
theorem readsBack_of_wellNamed {m : Node} (hm : m.WellNamed) : m.ReadsBack := by
  induction m with
  | named name =>
    obtain ⟨hname⟩ := hm
    exact readsBack_of_name hname rfl rfl
  | applied form base params ih =>
    intro n r s hn hr hs h
    have hleaf (hread : n.ReadsBack) : (applied form base params).apparent = n.apparent ∧ r = s :=
      (hread hm hs hr h.symm).imp Eq.symm Eq.symm
    cases hn with
    | named hother => exact hleaf (readsBack_of_name hother rfl rfl)
    | @applied form' base' params' hbase' hparams' =>
      obtain _ | ⟨hbase, hparams⟩ := hm
      -- both bases end at their brackets
      obtain ⟨rest, htext⟩ := exists_toList_text_applied form base params
      obtain ⟨rest', htext'⟩ := exists_toList_text_applied form' base' params'
      have hbases := h
      rw [htext, htext', List.append_assoc, List.append_assoc] at hbases
      obtain ⟨rfl, -⟩ := name_append_inj hbase hbase' (beginsWithMark_open _)
        (beginsWithMark_open _) hbases
      exact apparent_applied_eq (fun param hparam => ih param hparam (hparams param hparam))
        hparams hparams' h
    | anything => exact hleaf (readsBack_of_name (by decide) rfl rfl)
    | nothing => exact hleaf (readsBack_of_name (by decide) rfl rfl)
  | anything => exact readsBack_of_name (by decide) rfl rfl
  | nothing => exact readsBack_of_name (by decide) rfl rfl

/-- A text shows the base, and the parameters in their order. -/
theorem apparent_applied_inj {form form' : Form} {base base' : String} {ms ns : List Node}
    (h : (applied form base ms).apparent = (applied form' base' ns).apparent) :
    base = base' ∧ ms.map apparent = ns.map apparent := by
  rw [apparent, apparent, apparents_eq_map, apparents_eq_map] at h
  exact (applied.inj h).2

/-- **Surface text is uniquely readable.** Two nodes with proper names have the same text if and
only if they appear the same. So a callable with parameters never has the text of a generic or a
tuple, the text of a callable tells its arguments from its return type, and every text tells the
base and the parameters, in their order. -/
theorem text_eq_iff_apparent {m n : Node} (hm : m.WellNamed) (hn : n.WellNamed) :
    (m.text = n.text ↔ m.apparent = n.apparent) ∧
    (∀ base args ret form base' params, m = applied .callable base (args ++ [ret]) →
      n = applied form base' params → form ≠ .callable → m.text ≠ n.text) ∧
    (∀ base args ret base' args' ret', m = applied .callable base (args ++ [ret]) →
      n = applied .callable base' (args' ++ [ret']) → m.text = n.text →
      base = base' ∧ args.map apparent = args'.map apparent ∧ ret.apparent = ret'.apparent) ∧
    ∀ form base params form' base' params', m = applied form base params →
      n = applied form' base' params' → m.text = n.text →
      base = base' ∧ params.map apparent = params'.map apparent := by
  have hread (h : m.text = n.text) : m.apparent = n.apparent :=
    (readsBack_of_wellNamed hm hn endsNode_nil endsNode_nil (by rw [h])).1
  refine ⟨⟨hread, fun h => ?_⟩, ?_, ?_, ?_⟩
  · rw [← text_apparent m, h, text_apparent n]
  · rintro base args ret form base' params rfl rfl hform h
    have happarent := hread h
    rw [apparent_callable, apparent_applied fun hcallable => absurd hcallable hform] at happarent
    cases happarent
  · rintro base args ret base' args' ret' rfl rfl h
    obtain ⟨rfl, hparams⟩ := apparent_applied_inj (hread h)
    rw [List.map_append, List.map_append] at hparams
    obtain ⟨hargs, hret⟩ := List.append_inj' hparams rfl
    exact ⟨rfl, hargs, (List.cons.inj hret).1⟩
  · rintro form base params form' base' params' rfl rfl h
    exact apparent_applied_inj (hread h)

/-- A tuple that reads like a generic, with a difference that does not show in each of its
parameters, and none in how its callable sets the argument apart. -/
theorem text_eq_iff_apparent_tuple :
    ∃ m n : Node, m.WellNamed ∧ n.WellNamed ∧
      m = applied .tuple "tuple"
        [anything, applied .callable "f" [applied .callable "g" [], nothing]] ∧
      n = applied .generic "tuple"
        [named "Any", applied .callable "f" [applied .tuple "g" [], named "nothing"]] ∧
      m.text = n.text := by
  have hleft : WellNamed (applied .callable "f" [applied .callable "g" [], nothing]) :=
    .applied (by decide) (List.forall_mem_cons.mpr
      ⟨.applied (by decide) nofun, List.forall_mem_singleton.mpr .nothing⟩)
  have hright : WellNamed (applied .callable "f" [applied .tuple "g" [], named "nothing"]) :=
    .applied (by decide) (List.forall_mem_cons.mpr
      ⟨.applied (by decide) nofun, List.forall_mem_singleton.mpr (.named (by decide))⟩)
  have hm : WellNamed (applied .tuple "tuple" [anything, _]) :=
    .applied (by decide) (List.forall_mem_cons.mpr
      ⟨.anything, List.forall_mem_singleton.mpr hleft⟩)
  have hn : WellNamed (applied .generic "tuple" [named "Any", _]) :=
    .applied (by decide) (List.forall_mem_cons.mpr
      ⟨.named (by decide), List.forall_mem_singleton.mpr hright⟩)
  exact ⟨_, _, hm, hn, rfl, rfl, (text_eq_iff_apparent hm hn).1.mpr rfl⟩

/-- A comma in a name can be taken for the one between two parameters. -/
example : (applied .generic "f" [named "int, str"]).text =
    (applied .generic "f" [named "int", named "str"]).text := by
  decide

end Node

end TypeExpr
