import MarkupTemplate.Proofs.Arena.TextSplices

namespace MarkupTemplate

/-- The template that an include asks for. -/
def ArenaNode.asked? (node : ArenaNode) : Option Text :=
  node.element?.bind (·.setting? "src".toList)

/-- A template with arguments bound in it, one after the other. -/
def bindAll (args : List (Text × Text)) (template : Text) : Text :=
  args.foldl (fun text arg => bindArgument arg.1 arg.2 text) template

namespace Arena

/-- Children of an include, the arguments among them with their lowered names and their contents,
and a notice for each other element and each text that is not blank. -/
inductive Visits (tree : Arena) (source : Text) :
    List Nat → List (Text × Text) → List Notice → Prop
  | nil : Visits tree source [] [] []
  | argument {id : Nat} {node : ArenaNode} {e : Element} {attr : Attribute}
      {attributes : List Attribute} {value : Text} {rest : List Nat} {args : List (Text × Text)}
      {notices : List Notice} : tree.node? id = some node → node.content = some (.element e) →
      e.role = .argument → e.attributes = attr :: attributes →
      tree.childrenMarkup? id = some value → Visits tree source rest args notices →
      Visits tree source (id :: rest) ((lowerText attr.name, value) :: args) notices
  | element {id : Nat} {node : ArenaNode} {e : Element} {markup : Text} {rest : List Nat}
      {args : List (Text × Text)} {notices : List Notice} : tree.node? id = some node →
      node.content = some (.element e) → e.role ≠ .argument → tree.markup? id = some markup →
      Visits tree source rest args notices →
      Visits tree source (id :: rest) args (.notAnArgument markup source :: notices)
  | text {id : Nat} {node : ArenaNode} {shown : Text} {rest : List Nat}
      {args : List (Text × Text)} {notices : List Notice} : tree.node? id = some node →
      node.content = some (.text shown) → isBlankText shown = false →
      Visits tree source rest args notices →
      Visits tree source (id :: rest) args (.textInInclude source :: notices)
  | blank {id : Nat} {node : ArenaNode} {shown : Text} {rest : List Nat}
      {args : List (Text × Text)} {notices : List Notice} : tree.node? id = some node →
      node.content = some (.text shown) → isBlankText shown = true →
      Visits tree source rest args notices → Visits tree source (id :: rest) args notices
  | verbatim {id : Nat} {node : ArenaNode} {shown : Text} {rest : List Nat}
      {args : List (Text × Text)} {notices : List Notice} : tree.node? id = some node →
      node.content = some (.verbatim shown) → Visits tree source rest args notices →
      Visits tree source (id :: rest) args notices

/-- The node is an argument without a name. -/
def IsNameless (tree : Arena) (id : Nat) : Prop :=
  ∃ node e, tree.node? id = some node ∧ node.content = some (.element e) ∧ e.role = .argument ∧
    e.attributes = []

/-- An include fails with a notice of the cause, after it noted what its children visited before
are. -/
inductive Fails (context : Context) (tree : Arena) (node : ArenaNode) :
    Notice → List Notice → Prop
  | source : node.asked? = none → Fails context tree node .includeWithoutSource []
  | template {source : Text} {error : LoadError} : node.asked? = some source →
      context.template source = .error error →
      Fails context tree node (.includeFailed source error) []
  | argument {source template : Text} {visited rest : List Nat} {id : Nat}
      {args : List (Text × Text)} {notices : List Notice} : node.asked? = some source →
      context.template source = .ok template → node.children = visited ++ id :: rest →
      Visits tree source visited args notices → tree.IsNameless id →
      Fails context tree node (.argumentWithoutName source) notices

variable {tree : Arena} {source template : Text} {parent id : Nat} {visited rest ids all : List Nat}
  {args : List (Text × Text)} {notices : List Notice} {forest : Forest} {node : ArenaNode}
  {context : Context} {run : Run} {cause : Notice}

/-- Children that do not make an include fail are gone through. -/
theorem Visits.bindArguments? (h : tree.Visits source visited args notices) (rest : List Nat)
    (run : Run) (template : Text) :
    tree.bindArguments? source (visited ++ rest) run template =
      tree.bindArguments? source rest (run.noteAll notices) (bindAll args template) := by
  induction h generalizing run template with
  | nil => rfl
  | argument hn hc hr ha hv _ ih =>
    rw [List.cons_append, Arena.bindArguments?]
    simp only [hn, hc, hr, ha, hv, Option.bind_eq_bind, Option.bind_some, if_true]
    exact ih run _
  | element hn hc hr hm _ ih =>
    rw [List.cons_append, Arena.bindArguments?, Run.noteAll_cons]
    simp only [hn, hc, hr, hm, Option.bind_eq_bind, Option.bind_some, if_false]
    exact ih _ template
  | text hn hc hb _ ih =>
    rw [List.cons_append, Arena.bindArguments?, Run.noteAll_cons]
    simp only [hn, hc, hb, Option.bind_eq_bind, Option.bind_some]
    exact ih _ template
  | blank hn hc hb _ ih =>
    rw [List.cons_append, Arena.bindArguments?]
    simp only [hn, hc, hb, Option.bind_eq_bind, Option.bind_some, if_true]
    exact ih run template
  | verbatim hn hc _ ih =>
    rw [List.cons_append, Arena.bindArguments?]
    simp only [hn, hc, Option.bind_eq_bind, Option.bind_some]
    exact ih run template

/-- Of the children of an include all are visited, or there is a first argument without a name. -/
theorem Linked.exists_visits (h : tree.Linked []) (hl : tree.Lists parent ids forest all)
    (source : Text) :
    (∃ args notices, tree.Visits source ids args notices) ∨
      ∃ visited id rest args notices, ids = visited ++ id :: rest ∧
        tree.Visits source visited args notices ∧ tree.IsNameless id := by
  induction hl with
  | nil => exact .inl ⟨[], [], .nil⟩
  | @cons parent id node content rest inner others children next hn hc hp hchildren _ _ ih =>
    have onward (step : ∀ {visited args notices}, tree.Visits source visited args notices →
        ∃ args notices, tree.Visits source (id :: visited) args notices) :
        (∃ args notices, tree.Visits source (id :: rest) args notices) ∨
          ∃ visited k later args notices, id :: rest = visited ++ k :: later ∧
            tree.Visits source visited args notices ∧ tree.IsNameless k := by
      rcases ih with ⟨args, notices, hv⟩ | ⟨visited, k, later, args, notices, rfl, hv, hk⟩
      · exact .inl (step hv)
      · obtain ⟨args, notices, hv⟩ := step hv
        exact .inr ⟨id :: visited, k, later, args, notices, rfl, hv, hk⟩
    cases content with
    | element e =>
      by_cases hr : e.role = .argument
      · cases ha : e.attributes with
        | nil => exact .inr ⟨[], id, rest, [], [], rfl, .nil, node, e, hn, hc, hr, ha⟩
        | cons attr attributes =>
          have value := h.childrenMarkup?_eq hn hchildren
          exact onward fun hv => ⟨_, _, .argument hn hc hr ha value hv⟩
      · have markup := h.markup?_eq hn hc hp hchildren
        exact onward fun hv => ⟨_, _, .element hn hc hr markup hv⟩
    | text shown =>
      cases hb : isBlankText shown with
      | true => exact onward fun hv => ⟨_, _, .blank hn hc hb hv⟩
      | false => exact onward fun hv => ⟨_, _, .text hn hc hb hv⟩
    | verbatim shown => exact onward fun hv => ⟨_, _, .verbatim hn hc hv⟩

/-- An include that fails is taken out, and the cause is noted after what was visited. -/
theorem Fails.resolveInclude? {removed : Arena} (hf : Fails context tree node cause notices)
    (hn : tree.node? id = some node) (hd : tree.detach? id = some removed) (run : Run) :
    tree.resolveInclude? context run id =
      some ((({ run with expanded := node.asked? :: run.expanded } : Run).noteAll notices).note
        cause, removed) := by
  unfold Arena.resolveInclude?
  rw [hn, Option.bind_eq_bind, Option.bind_some]
  cases hf with
  | source hs =>
    have asked : node.element?.bind (·.setting? "src".toList) = none := hs
    simp only [asked, hd, hs]
    rfl
  | @template source error hs ht =>
    have asked : node.element?.bind (·.setting? "src".toList) = some source := hs
    simp only [asked, hd, hs, ht]
    rfl
  | @argument source template visited rest k args notices hs ht hchildren hv hk =>
    have asked : node.element?.bind (·.setting? "src".toList) = some source := hs
    obtain ⟨nameless, e, hk, hc, hr, ha⟩ := hk
    have stops (run : Run) (template : Text) :
        tree.bindArguments? source (k :: rest) run template =
          some (run.note (.argumentWithoutName source), none) := by
      rw [Arena.bindArguments?]
      simp only [hk, hc, hr, ha, Option.bind_eq_bind, Option.bind_some, if_true]
    simp only [asked, hd, hs, ht, hchildren, hv.bindArguments?, stops]
    rfl

/-- An include whose children are all visited reads the template with the arguments bound. -/
theorem Visits.resolveInclude? (hv : tree.Visits source node.children args notices)
    (hn : tree.node? id = some node) (hs : node.asked? = some source)
    (ht : context.template source = .ok template) (run : Run) :
    tree.resolveInclude? context run id =
      ((({ run with expanded := node.asked? :: run.expanded } : Run).noteAll notices).readArena?
        (bindAll args template)).bind fun (run, fragment) =>
          (if isDocument template then tree.replaceDocument? fragment
            else tree.replace? id fragment).map (run, ·) := by
  have asked : node.element?.bind (·.setting? "src".toList) = some source := hs
  have bound (run : Run) : tree.bindArguments? source node.children run template =
      some (run.noteAll notices, some (bindAll args template)) := by
    have whole := hv.bindArguments? [] run template
    rwa [List.append_nil] at whole
  unfold Arena.resolveInclude?
  simp only [hn, asked, hs, ht, bound, Option.bind_eq_bind, Option.bind_some]
  congr 1
  funext ⟨run, fragment⟩
  dsimp only
  cases isDocument template with
  | true => cases tree.replaceDocument? fragment <;> rfl
  | false => cases tree.replace? id fragment <;> rfl

/-- An arena is written as the forest that it holds. -/
theorem Linked.markup?_of_holds (h : tree.Linked []) (hh : tree.Holds forest) :
    tree.markup? 0 = some forest.markup := by
  obtain ⟨document, all, hd, hlists, _⟩ := hh
  obtain ⟨parts, hw, htext, _⟩ := hlists.writes
  rw [markup?_eq_parts, h.parts?_document hd hw, Option.map_some, htext]

/-- Taking out a node takes it from the children of its parent. -/
theorem Detached.owner {after : Arena} {owner : ArenaNode} {before later : List Nat}
    (hd : Detached tree after [id]) (h : tree.Linked []) (ho : tree.node? parent = some owner)
    (hsplit : owner.children = before ++ [id] ++ later) :
    after.node? parent = some { owner with children := before ++ [] ++ later } := by
  have hm : id ∈ owner.children := by simp [hsplit]
  have hne : parent ≠ id := Nat.ne_of_lt (h.child ho id hm).1
  have hnodup := hsplit ▸ h.nodup ho
  rw [hd.node, ho, Option.map_some, hsplit, foldl_erase_run hnodup]
  simp [hne]

/-- A node that is taken out is written nowhere, and all else as before. -/
theorem Stands.detach {owner : ArenaNode} {before later : List Nat}
    {ahead inside behind : List (Nat × Text)} (stands : tree.Stands [id] ahead inside behind)
    (h : tree.Linked []) (ha : tree.Attached parent) (ho : tree.node? parent = some owner)
    (hsplit : owner.children = before ++ [id] ++ later) (hn : tree.node? id = some node) :
    ∃ removed, tree.detach? id = some removed ∧ removed.parts? [0] = some (ahead ++ behind) ∧
      removed.markup? 0 = some (partsText ahead ++ partsText behind) := by
  obtain ⟨removed, hr, hd⟩ := h.detach hn
  have hm : id ∈ owner.children := by simp [hsplit]
  have whole := stands.splice h ha ho hsplit (List.cons_ne_nil id []) hd.linked
    (fun k _ hk hid => hd.old h ho hm hk (by simpa using hid)) (hd.owner h ho hsplit) .nil
  rw [List.append_nil] at whole
  exact ⟨removed, hr, whole, by rw [markup?_eq_parts, whole, Option.map_some, partsText_append]⟩

/-- All that is told about the children of an include is concise. -/
theorem Visits.level (hv : tree.Visits source ids args notices) :
    ∀ notice ∈ notices, notice.level = .concise := by
  induction hv with
  | nil => simp
  | argument _ _ _ _ _ _ ih => exact ih
  | element _ _ _ _ _ ih => exact List.forall_mem_cons.mpr ⟨rfl, ih⟩
  | text _ _ _ _ ih => exact List.forall_mem_cons.mpr ⟨rfl, ih⟩
  | blank _ _ _ _ ih => exact ih
  | verbatim _ _ _ ih => exact ih

theorem Fails.level (hf : Fails context tree node cause notices) :
    ∀ notice ∈ notices ++ [cause], notice.level = .concise := by
  cases hf with
  | source => simp [Notice.level]
  | template => simp [Notice.level]
  | argument _ _ _ hv _ => exact List.forall_mem_append.mpr ⟨hv.level, by simp [Notice.level]⟩

/-- If anything is told, all concise notices are. -/
theorem noteAll_concise {verbosity : Verbosity} (hv : verbosity ≠ .none)
    (hl : ∀ notice ∈ notices, notice.level = .concise) :
    Notice.told verbosity notices = notices := by
  refine List.filter_eq_self.mpr fun notice hm => ?_
  rw [hl notice hm]
  cases verbosity with
  | none => exact absurd rfl hv
  | concise => rfl
  | verbose => rfl
  | debug => rfl

/-- What is told of an include that fails. -/
theorem Fails.tells (hf : Fails context tree node cause notices) (hv : run.verbosity ≠ .none) :
    ((run.noteAll notices).note cause).notices = cause :: (notices.reverse ++ run.notices) := by
  obtain ⟨hnotices, hcause⟩ := List.forall_mem_append.mp hf.level
  have told := noteAll_concise hv hnotices
  have causeTold := noteAll_concise hv hcause
  simp only [Run.note, Run.noteAll, told, causeTold, List.reverseAux_eq, List.singleton_append]

/-- An include that does not fail is replaced by what it asks for. -/
theorem Visits.expands {owner : ArenaNode} {before later : List Nat}
    {ahead inside behind : List (Nat × Text)}
    (hv : tree.Visits source node.children args notices) (h : tree.Linked [])
    (stands : tree.Stands [id] ahead inside behind) (ha : tree.Attached parent)
    (ho : tree.node? parent = some owner) (hsplit : owner.children = before ++ [id] ++ later)
    (hn : tree.node? id = some node) (hs : node.asked? = some source)
    (ht : context.template source = .ok template) (run : Run) :
    ∃ after result fragment inserted, tree.resolveInclude? context run id = some (after, result) ∧
      after.model = run.model ∧ read? (bindAll args template) = some fragment ∧
      fragment.markup? 0 = some inserted ∧
      result.markup? 0 = some (if isDocument template then inserted
        else partsText ahead ++ inserted ++ partsText behind) := by
  obtain ⟨read, hread, holds, _⟩ := holds_read (bindAll args template)
  obtain ⟨same, hsame, linked⟩ := linked_read (bindAll args template)
  cases hread.symm.trans hsame
  obtain ⟨fragment, hf, hfl, hfh, _⟩ := Run.readArena?_eq
    (({ run with expanded := node.asked? :: run.expanded } : Run).noteAll notices)
    (bindAll args template)
  have inserted := linked.markup?_of_holds holds
  have resolved := hv.resolveInclude? hn hs ht run
  rw [hf, Option.bind_some] at resolved
  dsimp only at resolved
  cases hd : isDocument template with
  | true =>
    obtain ⟨result, hr, hrl⟩ := h.replaceDocument hfl
    rw [hd, if_pos rfl, hr, Option.map_some] at resolved
    exact ⟨_, result, read, _, resolved, rfl, hread, inserted,
      hrl.markup?_of_holds (hfh.replaceDocument hr)⟩
  | false =>
    obtain ⟨_, _, _, _, result, hi, hr, hmarkup, _⟩ :=
      stands.replaceRun h hfl ha ho hsplit (List.cons_ne_nil id [])
    have hr : tree.replace? id fragment = some result := hr
    cases hi.symm.trans (hfl.markup?_of_holds hfh)
    rw [hd, if_neg Bool.false_ne_true, hr, Option.map_some] at resolved
    exact ⟨_, result, read, _, resolved, rfl, hread, inserted, hmarkup⟩

/-- An include that fails leaves no trace but its absence. Its text is taken out and all else stays,
in order, the model stays, and if anything is told the cause is noted once, after a notice for each
child before that has no business there. An include that does not fail is replaced, in the text, by
the template with the arguments bound, or all is replaced if that is a document. -/
theorem resolveInclude?_traceless (h : tree.Sound) (ha : tree.Attached id)
    (hn : tree.node? id = some node) (hi : node.isElement (·.isInclusion) = true)
    (context : Context) (run : Run) :
    (∃ ahead inside behind, tree.Stands [id] ahead inside behind) ∧
      ∀ {ahead inside behind : List (Nat × Text)}, tree.Stands [id] ahead inside behind →
        ∃ shown after result, tree.markup? id = some shown ∧
          tree.markup? 0 = some (partsText ahead ++ shown ++ partsText behind) ∧
          tree.resolveInclude? context run id = some (after, result) ∧
          after.model = run.model ∧
          (∀ cause notices, Fails context tree node cause notices →
            result.parts? [0] = some (ahead ++ behind) ∧
            result.markup? 0 = some (partsText ahead ++ partsText behind) ∧
            (run.verbosity ≠ .none →
              after.notices = cause :: (notices.reverse ++ run.notices))) ∧
          ((∀ cause notices, ¬ Fails context tree node cause notices) →
            ∃ source template args notices fragment inserted, node.asked? = some source ∧
              context.template source = .ok template ∧
              tree.Visits source node.children args notices ∧
              read? (bindAll args template) = some fragment ∧
              fragment.markup? 0 = some inserted ∧
              result.markup? 0 = some (if isDocument template then inserted
                else partsText ahead ++ inserted ++ partsText behind)) := by
  have hl := h.linked
  have hid := hl.ne_zero hn hi
  cases ha with
  | document => exact absurd rfl hid
  | @child parent _ owner ha ho hm =>
    obtain ⟨before, later, hsplit⟩ := List.append_of_mem hm
    rw [List.append_cons] at hsplit
    have hne := List.cons_ne_nil id []
    obtain ⟨_, _, _, found, _⟩ := hl.stands ha ho hsplit hne
    refine ⟨⟨_, _, _, found⟩, fun {ahead inside behind} stands => ?_⟩
    have shown : ∃ shown, tree.markup? id = some shown ∧
        tree.markup? 0 = some (partsText ahead ++ shown ++ partsText behind) := by
      obtain ⟨texts, ht, hwhole⟩ := stands.markup?
      rw [List.mapM_cons] at ht
      obtain ⟨shown, hshown, ht⟩ := Option.bind_eq_some_iff.mp ht
      cases ht
      exact ⟨shown, hshown, by simpa using hwhole⟩
    obtain ⟨shown, hshown, hwhole⟩ := shown
    by_cases hf : ∃ cause notices, Fails context tree node cause notices
    · obtain ⟨cause, notices, hf⟩ := hf
      obtain ⟨removed, hremoved, hparts, hmarkup⟩ := stands.detach hl ha ho hsplit hn
      have resolved := hf.resolveInclude? hn hremoved run
      refine ⟨shown, _, removed, hshown, hwhole, resolved, rfl,
        fun other others hf' => ⟨hparts, hmarkup, fun hv => ?_⟩, fun never => absurd hf (never _ _)⟩
      have same := resolved.symm.trans (hf'.resolveInclude? hn hremoved run)
      rw [(Prod.mk.inj (Option.some.inj same)).1]
      exact hf'.tells hv
    · have never : ∀ cause notices, ¬ Fails context tree node cause notices :=
        fun cause notices h' => hf ⟨cause, notices, h'⟩
      cases hs : node.asked? with
      | none => exact absurd (.source hs) (never _ _)
      | some source =>
        cases ht : context.template source with
        | error error => exact absurd (.template hs ht) (never _ _)
        | ok template =>
          obtain ⟨_, _, hlists⟩ := hl.exists_lists (h.child hn)
          obtain ⟨args, notices, hv⟩ | ⟨_, _, _, _, _, hchildren, hv, hk⟩ :=
            hl.exists_visits hlists source
          · obtain ⟨after, result, fragment, inserted, hr, hmodel, hread, hi, hmarkup⟩ :=
              hv.expands hl stands ha ho hsplit hn hs ht run
            exact ⟨shown, after, result, hshown, hwhole, hr, hmodel,
              fun cause notices h' => absurd h' (never _ _), fun _ =>
                ⟨source, template, args, notices, fragment, inserted, rfl, ht, hv, hread, hi,
                  hmarkup⟩⟩
          · exact absurd (.argument hs ht hchildren hv hk) (never _ _)

/-- The arena of a paragraph with an include with two arguments and a text between them. -/
def twoArguments (second : List Attribute) : Arena where
  nodes := #[
    { content := none, children := [1] },
    { content := some (.element ⟨['p'], [], .normal⟩), parent := some 0, children := [2, 3, 9] },
    { content := some (.text ['a']), parent := some 1 },
    { content := some (.element ⟨"include".toList, [⟨"src".toList, .unquoted ['t']⟩], .normal⟩),
      parent := some 1, children := [4, 6, 7] },
    { content := some (.element ⟨"arg".toList, [⟨['x'], .bare⟩], .normal⟩), parent := some 3,
      children := [5] },
    { content := some (.text ['1']), parent := some 4 },
    { content := some (.text ['!']), parent := some 3 },
    { content := some (.element ⟨"arg".toList, second, .normal⟩), parent := some 3,
      children := [8] },
    { content := some (.text ['2']), parent := some 7 },
    { content := some (.text ['b']), parent := some 1 }]

theorem twoArguments_attached (second : List Attribute) : (twoArguments second).Attached 3 := by
  have body : (twoArguments second).Attached 1 := .child .document rfl (List.mem_singleton_self 1)
  exact .child body rfl (List.mem_of_getElem? (i := 1) rfl)

/-- An include whose second argument has no name, behind one that was bound and a text that does not
belong there, and the include with a name for it. -/
theorem resolveInclude?_traceless_arguments :
    let context : Context := ⟨fun _ => .ok "\x7bx\x7d\x7by\x7d".toList, 10, .concise⟩
    let node : ArenaNode := ⟨some (.element ⟨"include".toList,
      [⟨"src".toList, .unquoted ['t']⟩], .normal⟩), false, some 1, [4, 6, 7]⟩
    node.isElement (·.isInclusion) = true ∧
    ((twoArguments []).Sound ∧ (twoArguments []).Attached 3 ∧
      (twoArguments []).node? 3 = some node ∧
      ∃ after result, (twoArguments []).resolveInclude? context (.start context {}) 3 =
          some (after, result) ∧
        result.markup? 0 = some "<p>ab</p>".toList ∧
        after.notices = [.argumentWithoutName ['t'], .textInInclude ['t']]) ∧
    let tree := twoArguments [⟨['y'], .bare⟩]
    tree.Sound ∧ tree.Attached 3 ∧ tree.node? 3 = some node ∧
      ∃ after result args notices fragment,
        tree.resolveInclude? context (.start context {}) 3 = some (after, result) ∧
        tree.Visits ['t'] [4, 6, 7] args notices ∧
        read? (bindAll args "\x7bx\x7d\x7by\x7d".toList) = some fragment ∧
        fragment.markup? 0 = some "12".toList ∧
        result.markup? 0 = some "<p>a12b</p>".toList := by
  intro context node
  refine ⟨by decide, ?_, ?_⟩
  · have read : read? "<p>a<include src=t><arg x>1</arg>!<arg>2</arg></include>b</p>".toList =
        some (twoArguments []) := by decide +kernel
    obtain ⟨same, hs, linked⟩ := linked_read
      "<p>a<include src=t><arg x>1</arg>!<arg>2</arg></include>b</p>".toList
    cases read.symm.trans hs
    have found : (twoArguments []).node? 3 = some node := rfl
    have stands : (twoArguments []).Stands [3] [(1, "<p>".toList), (2, ['a'])]
        [(3, "<include src=t>".toList), (4, "<arg x>".toList), (5, ['1']), (4, "</arg>".toList),
          (6, ['!']), (7, "<arg>".toList), (8, ['2']), (7, "</arg>".toList),
          (3, "</include>".toList)] [(9, ['b']), (1, "</p>".toList)] :=
      ⟨by decide +kernel, by decide +kernel, by decide⟩
    have isArgument : (⟨"arg".toList, [⟨['x'], .bare⟩], .normal⟩ : Element).role = .argument := by
      decide
    have value : (twoArguments []).childrenMarkup? 4 = some ['1'] := by decide +kernel
    have visits : (twoArguments []).Visits ['t'] [4, 6] [(lowerText ['x'], ['1'])]
        [.textInInclude ['t']] :=
      .argument rfl rfl isArgument rfl value (.text rfl rfl (by decide) .nil)
    have nameless : (twoArguments []).IsNameless 7 :=
      ⟨_, ⟨"arg".toList, [], .normal⟩, rfl, rfl, by decide, rfl⟩
    obtain ⟨_, after, result, _, _, hr, _, fails, _⟩ :=
      (resolveInclude?_traceless linked.sound (twoArguments_attached _) found (by decide) context
        (.start context {})).2 stands
    obtain ⟨_, hmarkup, hnotices⟩ := fails _ _ (.argument (by decide) rfl rfl visits nameless)
    exact ⟨linked.sound, twoArguments_attached _, found, after, result, hr, hmarkup,
      hnotices (by decide)⟩
  · have read : read? "<p>a<include src=t><arg x>1</arg>!<arg y>2</arg></include>b</p>".toList =
        some (twoArguments [⟨['y'], .bare⟩]) := by decide +kernel
    obtain ⟨same, hs, linked⟩ := linked_read
      "<p>a<include src=t><arg x>1</arg>!<arg y>2</arg></include>b</p>".toList
    cases read.symm.trans hs
    have found : (twoArguments [⟨['y'], .bare⟩]).node? 3 = some node := rfl
    have stands : (twoArguments [⟨['y'], .bare⟩]).Stands [3] [(1, "<p>".toList), (2, ['a'])]
        [(3, "<include src=t>".toList), (4, "<arg x>".toList), (5, ['1']), (4, "</arg>".toList),
          (6, ['!']), (7, "<arg y>".toList), (8, ['2']), (7, "</arg>".toList),
          (3, "</include>".toList)] [(9, ['b']), (1, "</p>".toList)] :=
      ⟨by decide +kernel, by decide +kernel, by decide⟩
    have named (id : Nat) (hm : id ∈ [4, 6, 7]) :
        ¬ (twoArguments [⟨['y'], .bare⟩]).IsNameless id := by
      rintro ⟨_, e, hn, hc, _, ha⟩
      simp only [List.mem_cons, List.not_mem_nil, or_false] at hm
      obtain rfl | rfl | rfl := hm <;> cases hn <;> cases hc
      · cases ha
      · cases ha
    have never (cause : Notice) (notices : List Notice) :
        ¬ Fails context (twoArguments [⟨['y'], .bare⟩]) node cause notices := by
      intro hf
      cases hf with
      | source hs => cases hs
      | template _ ht => cases ht
      | argument _ _ hchildren _ hk =>
        refine named _ ?_ hk
        rw [show [4, 6, 7] = node.children from rfl, hchildren]
        exact List.mem_append_right _ List.mem_cons_self
    obtain ⟨_, after, result, _, _, hr, _, _, replaced⟩ :=
      (resolveInclude?_traceless linked.sound (twoArguments_attached _) found (by decide) context
        (.start context {})).2 stands
    obtain ⟨source, template, args, notices, fragment, inserted, hs, ht, hv, hread, hi, hmarkup⟩ :=
      replaced never
    cases hs
    cases ht
    have whole : ((twoArguments [⟨['y'], .bare⟩]).resolveInclude? context
        (.start context {}) 3).map (fun pass => pass.2.markup? 0) =
          some (some "<p>a12b</p>".toList) := by decide +kernel
    rw [hr] at whole
    have shown := Option.some.inj whole
    have between : "<p>a".toList ++ inserted ++ "b</p>".toList =
        "<p>a".toList ++ "12".toList ++ "b</p>".toList :=
      Option.some.inj (hmarkup.symm.trans shown)
    have inserted_eq := List.append_cancel_left (List.append_cancel_right between)
    exact ⟨linked.sound, twoArguments_attached _, found, after, result, args, notices, fragment, hr,
      hv, hread, hi.trans (congrArg some inserted_eq), shown⟩

end Arena

end MarkupTemplate
