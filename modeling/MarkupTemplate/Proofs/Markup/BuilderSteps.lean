import MarkupTemplate.Markup.Document

namespace MarkupTemplate

namespace Forest

/-- The nodes in reverse order; their children stay in order. -/
def reverse (forest : Forest) : Forest :=
  forest.reverseOnto .nil

theorem reverseOnto_eq (forest after : Forest) :
    forest.reverseOnto after = forest.reverse ++ after := by
  unfold reverse
  induction forest generalizing after with
  | nil => rfl
  | node content children next _ ih =>
    rw [reverseOnto, reverseOnto, ih, ih (.node content children .nil), append_assoc]
    rfl

theorem reverse_node (content : Content) (children next : Forest) :
    (Forest.node content children next).reverse = next.reverse ++ .node content children .nil := by
  rw [reverse, reverseOnto, reverseOnto_eq]

theorem reverse_append (a b : Forest) : (a ++ b).reverse = b.reverse ++ a.reverse := by
  induction a with
  | nil => exact (append_nil _).symm
  | node content children next _ ih =>
    rw [node_append, reverse_node, ih, reverse_node, append_assoc]

@[simp] theorem reverse_reverse (forest : Forest) : forest.reverse.reverse = forest := by
  induction forest with
  | nil => rfl
  | node content children next _ ih =>
    rw [reverse_node, reverse_append, ih]
    rfl

end Forest

namespace Builder

theorem leave_succ (builder : Builder) (count : Nat) :
    builder.leave (count + 1) = (builder.leave 1).leave count := by
  obtain ⟨nodes, around, warnings⟩ := builder
  cases around with
  | nil => simp [leave, closeAll]
  | cons level around => rfl

theorem finish_forest (builder : Builder) :
    builder.finish.1 = (builder.leave builder.around.length).nodes.reverse := by
  unfold finish
  split <;> simp [leave, warn, Forest.reverse]

/-- A relation between builders that is kept when both take the same step, except for texts. -/
structure Keeps (R : Builder → Builder → Prop) : Prop where
  names {a b : Builder} : R a b → a.around.map (·.element) = b.around.map (·.element)
  warn {a b : Builder} {warning : Warning} : R a b → R (a.warn warning) (b.warn warning)
  add {a b : Builder} {content : Content} :
    (∀ shown, content ≠ .text shown) → R a b → R (a.add content) (b.add content)
  enter {a b : Builder} {e : Element} : R a b → R (a.enter e) (b.enter e)
  leave {a b : Builder} : R a b → R (a.leave 1) (b.leave 1)

namespace Keeps

variable {R : Builder → Builder → Prop}

theorem leaveMany (h : Keeps R) {a b : Builder} (hr : R a b) (count : Nat) :
    R (a.leave count) (b.leave count) := by
  induction count generalizing a b with
  | zero => exact hr
  | succ count ih =>
    rw [leave_succ, leave_succ b]
    exact ih (h.leave hr)

theorem findIdx? (h : Keeps R) {a b : Builder} (hr : R a b) (p : Element → Bool) :
    a.around.findIdx? (fun level => p level.element) =
      b.around.findIdx? fun level => p level.element := by
  have map (levels : List OpenElement) : levels.findIdx? (fun level => p level.element) =
      (levels.map (·.element)).findIdx? p := by
    rw [List.findIdx?_map]
    rfl
  rw [map, map, h.names hr]

theorem step (h : Keeps R) {a b : Builder} (hr : R a b) {token : Token}
    (ht : ∀ shown, token ≠ .text shown) : R (a.step token) (b.step token) := by
  cases token with
  | text shown => exact absurd rfl (ht shown)
  | comment source => exact h.add nofun hr
  | declaration source => exact h.add nofun hr
  | opening name attributes selfClosing =>
    simp only [Builder.step]
    split
    next => exact h.add nofun hr
    next =>
      split
      next => exact h.add nofun hr
      next => exact h.enter hr
  | closing name =>
    simp only [Builder.step, h.findIdx? hr (sameName ·.name name)]
    split
    next => exact h.warn hr
    next => exact h.leave hr
    next => exact h.leaveMany (h.warn hr) _

end Keeps

theorem step_warnings (builder : Builder) (token : Token) :
    ∃ more, (builder.step token).warnings = more ++ builder.warnings := by
  cases token with
  | closing name =>
    simp only [step]
    split
    next => exact ⟨[_], rfl⟩
    next => exact ⟨[], rfl⟩
    next => exact ⟨[_], rfl⟩
  | opening name attributes selfClosing =>
    simp only [step]
    split
    next => exact ⟨[], rfl⟩
    next => split <;> exact ⟨[], rfl⟩
  | text | comment | declaration => exact ⟨[], rfl⟩

theorem foldl_warnings (tokens : List Token) (builder : Builder) :
    ∃ more, (tokens.foldl step builder).warnings = more ++ builder.warnings := by
  induction tokens generalizing builder with
  | nil => exact ⟨[], rfl⟩
  | cons token tokens ih =>
    obtain ⟨more, hm⟩ := ih (builder.step token)
    obtain ⟨first, hf⟩ := builder.step_warnings token
    exact ⟨more ++ first, by rw [List.foldl_cons, hm, hf, List.append_assoc]⟩

/-- Nodes with elements around them on top of a builder. -/
def stack (base : Builder) (nodes : Forest) : List OpenElement → Forest × List OpenElement
  | [] => (nodes ++ base.nodes, base.around)
  | level :: around =>
    let below := stack base level.before around
    (nodes, ⟨level.element, below.1⟩ :: below.2)

/-- A builder on top of another one. -/
def onto (builder base : Builder) : Builder :=
  ⟨(stack base builder.nodes builder.around).1, (stack base builder.nodes builder.around).2,
    base.warnings⟩

theorem stack_put (base : Builder) (content : Content) (children nodes : Forest)
    (around : List OpenElement) :
    stack base (.node content children nodes) around =
      (.node content children (stack base nodes around).1, (stack base nodes around).2) := by
  cases around <;> rfl

theorem step_onto {builder base : Builder} {token : Token}
    (h : (builder.step token).warnings = []) :
    (builder.onto base).step token = (builder.step token).onto base := by
  obtain ⟨nodes, around, warnings⟩ := builder
  cases token with
  | text | comment | declaration => simp only [step, add, onto, stack_put]
  | opening name attributes selfClosing =>
    simp only [step]
    split
    next => simp only [add, onto, stack_put]
    next =>
      split
      next => simp only [add, onto, stack_put]
      next => rfl
  | closing name =>
    cases around with
    | nil => cases h
    | cons level around =>
      cases hn : sameName level.element.name name with
      | false =>
        simp only [step, List.findIdx?_cons, hn, Bool.false_eq_true, if_false] at h
        split at h
        next => cases h
        next he => simp at he
        next => cases h
      | true => simp [step, onto, stack, List.findIdx?_cons, hn, leave, closeAll, stack_put]

/-- Tokens that need no repairs are taken in the same way on top of another builder. -/
theorem foldl_onto {tokens : List Token} {builder : Builder} (base : Builder)
    (h : (tokens.foldl step builder).warnings = []) :
    tokens.foldl step (builder.onto base) = (tokens.foldl step builder).onto base := by
  induction tokens generalizing builder with
  | nil => rfl
  | cons token tokens ih =>
    obtain ⟨more, hm⟩ := foldl_warnings tokens (builder.step token)
    rw [List.foldl_cons] at h
    rw [h] at hm
    have hstep := (List.append_eq_nil_iff.mp hm.symm).2
    rw [List.foldl_cons, List.foldl_cons, step_onto hstep, ih h]

theorem eq_of_finish {builder : Builder} {forest : Forest} (h : builder.finish = (forest, [])) :
    builder = { nodes := forest.reverse } := by
  obtain ⟨nodes, around, warnings⟩ := builder
  cases around with
  | nil =>
    have hf : (nodes.reverse, warnings.reverse) = (forest, []) := h
    obtain ⟨hn, hw⟩ := Prod.mk.inj hf
    rw [← hn, Forest.reverse_reverse, List.reverse_eq_nil_iff.mp hw]
  | cons level around =>
    have hw := congrArg Prod.snd h
    simp [finish, warn] at hw

end Builder

end MarkupTemplate
