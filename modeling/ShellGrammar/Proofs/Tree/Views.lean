import Mathlib
import ShellGrammar.Node.Generic
import ShellGrammar.Proofs.Tree.Mentions

/-! A tree and its generic view.

The tag of a node tells its form (`ctorIdx_of_tag`), and the fields of a form are always the
same, each once. So two views that are equal field by field, whatever the order, are views of
one tree (`same_tagged_iff`).

A view is gone through by following the values of its fields that hold views, in their order.
These are the views of the node's children (`subviews_tagged`), so a walk over a view meets
what a walk over its tree meets (`views_agree`). -/
namespace ShellGrammar

/-! ### Going through a view -/

namespace Value

/-- The views that a value holds. -/
def subviews : Value → List Tagged
  | node n => [n]
  | nodes ns => ns
  | str _ | bool _ | nil => []

@[simp] theorem subviews_node (n : Tagged) : (node n).subviews = [n] := rfl

@[simp] theorem subviews_nodes (ns : List Tagged) : (nodes ns).subviews = ns := rfl

@[simp] theorem subviews_str (t : Text) : (str t).subviews = [] := rfl

@[simp] theorem subviews_bool (b : Bool) : (bool b).subviews = [] := rfl

end Value

namespace Tagged

/-- The views right below a view, in the order of its fields. -/
def subviews (t : Tagged) : List Tagged := t.fields.flatMap (·.2.subviews)

end Tagged

mutual

/-- The views in a view in pre-order. -/
def Tagged.preorder : Tagged → List Tagged
  | .mk tag fields => .mk tag fields :: Value.preorderFields fields

def Value.preorderFields : List (String × Value) → List Tagged
  | [] => []
  | (_, v) :: rest => Value.preorder v ++ Value.preorderFields rest

def Value.preorder : Value → List Tagged
  | .node n => Tagged.preorder n
  | .nodes ns => Value.preorderNodes ns
  | .str _ | .bool _ | .nil => []

def Value.preorderNodes : List Tagged → List Tagged
  | [] => []
  | n :: ns => Tagged.preorder n ++ Value.preorderNodes ns

end

theorem Value.preorderNodes_eq (ns : List Tagged) :
    preorderNodes ns = ns.flatMap Tagged.preorder := by
  induction ns with
  | nil => rfl
  | cons n ns ih => rw [preorderNodes, ih, List.flatMap_cons]

theorem Value.preorder_eq (v : Value) : v.preorder = v.subviews.flatMap Tagged.preorder := by
  cases v with
  | node n => rw [preorder, subviews, List.flatMap_singleton]
  | nodes ns => exact preorderNodes_eq ns
  | _ => rfl

/-- In pre-order a view stands before those of its fields. -/
theorem Tagged.preorder_eq (t : Tagged) :
    t.preorder = t :: t.subviews.flatMap Tagged.preorder := by
  have hfields : ∀ fields : List (String × Value), Value.preorderFields fields =
      (fields.flatMap (·.2.subviews)).flatMap Tagged.preorder := by
    intro fields
    induction fields with
    | nil => rfl
    | cons f fields ih =>
      rw [Value.preorderFields, Value.preorder_eq, ih, List.flatMap_cons, List.flatMap_append]
  cases t with
  | mk tag fields => rw [preorder, hfields, subviews, Tagged.fields]

namespace Node

/-! ### The view of a node -/

theorem taggedAll_eq (ns : List Node) : taggedAll ns = ns.map tagged := by
  induction ns with
  | nil => rfl
  | cons n ns ih => rw [taggedAll, ih, List.map_cons, tagged]

theorem subviews_taggedOpt (n : Option Node) : (taggedOpt n).subviews = n.toList.map tagged := by
  cases n <;> rfl

theorem subviews_ofText? (t : Option Text) : (Value.ofText? t).subviews = [] := by
  cases t <;> rfl

/-- Below the view of a node stand the views of its children. -/
theorem subviews_tagged (n : Node) : n.tagged.subviews = n.children.map tagged := by
  cases n <;>
    simp [Tagged.subviews, Tagged.fields, tagged, fields, children, taggedAll_eq,
      subviews_taggedOpt, subviews_ofText?]

theorem preorder_tagged (n : Node) : n.tagged.preorder = n.preorder.map tagged := by
  induction n using induct_children with
  | step n ih =>
    rw [Tagged.preorder_eq, preorder_eq, subviews_tagged, List.map_cons, List.map_flatMap,
      List.flatMap_map, List.flatMap_def, List.flatMap_def, List.map_congr_left ih]

/-! ### What a tag tells -/

/-- The tags in the order of the forms. -/
def tags : List String := [
  "list", "pipelines", "and_or", "pipeline", "pipe", "simple_command", "assign", "str", "sstr",
  "dquote", "concat", "simple_param_ex", "param_ex", "param_len", "param_subst", "substr",
  "pattern_rm", "pattern_subst", "case_mod", "prefix_ex", "param_trans", "array_ex", "array_keys",
  "array_access", "command_subst", "process_subst", "arith_ex", "number", "var", "bin_op",
  "un_op", "post_op", "ternary", "parentheses", "empty"]

theorem nodup_tags : tags.Nodup := by simp [tags]

theorem tags_ctorIdx (n : Node) : tags[n.ctorIdx]? = some n.tag := by cases n <;> rfl

/-- No two forms have one tag. -/
theorem ctorIdx_of_tag {a b : Node} (h : a.tag = b.tag) : a.ctorIdx = b.ctorIdx := by
  obtain ⟨hlt, _⟩ := List.getElem?_eq_some_iff.mp (tags_ctorIdx a)
  exact (List.getElem?_inj hlt nodup_tags).mp ((tags_ctorIdx a).trans (h ▸ (tags_ctorIdx b).symm))

/-! ### Equal views -/

theorem mk_tagged (n : Node) : Tagged.mk n.tag n.fields = n.tagged := rfl

theorem get?_tagged (n : Node) (name : String) : n.tagged.get? name = n.fields.lookup name := rfl

theorem same_tagged (a b : Node) : a.tagged.same b.tagged =
    (a.tag == b.tag && a.fields.length == b.fields.length &&
      Value.sameFields a.fields b.tagged) := by
  rw [tagged, Tagged.same]
  rfl

/-- A node has the same view as those nodes that are equal to it, and no others. -/
def KnownByView (n : Node) : Prop := ∀ m : Node, n.tagged.same m.tagged = true ↔ n = m

theorem KnownByView.same_iff {n m : Node} (h : n.KnownByView) :
    n.tagged.same m.tagged = true ↔ n = m := h m

theorem sameNodes_iff {ns ms : List Node} (h : ∀ n ∈ ns, n.KnownByView) :
    Value.sameNodes (ns.map tagged) (ms.map tagged) = true ↔ ns = ms := by
  induction ns generalizing ms with
  | nil => cases ms <;> simp [Value.sameNodes]
  | cons n ns ih =>
    cases ms with
    | nil => simp [Value.sameNodes]
    | cons m ms =>
      simp only [List.map_cons, Value.sameNodes, Bool.and_eq_true, List.cons.injEq,
        h n List.mem_cons_self m, ih fun k hk => h k (List.mem_cons_of_mem n hk)]

theorem same_taggedOpt_iff {n m : Option Node} (h : ∀ k, n = some k → k.KnownByView) :
    Value.same (taggedOpt n) (taggedOpt m) = true ↔ n = m := by
  cases n with
  | none => cases m <;> simp [taggedOpt, Value.same]
  | some n =>
    cases m with
    | none => simp [taggedOpt, Value.same]
    | some m => simpa [taggedOpt, Value.same, mk_tagged] using h n rfl m

theorem same_ofText?_iff {t u : Option Text} :
    Value.same (.ofText? t) (.ofText? u) = true ↔ t = u := by
  cases t <;> cases u <;> simp [Value.ofText?, Value.same]

/-- Nodes of one form are equal if the values of their fields are. -/
theorem sameFields_iff {a b : Node} (h : a.ctorIdx = b.ctorIdx) (ih : ∀ n ∈ a.children, n.KnownByView) :
    Value.sameFields a.fields b.tagged = true ↔ a = b := by
  cases a <;> cases b <;> cases h <;>
    simp only [children, List.forall_mem_append, List.forall_mem_cons, Option.mem_toList] at ih <;>
    simp only [fields, Value.sameFields, get?_tagged, List.lookup_cons_self]
  -- Forms with sequences of nodes or with a node that may be missing.
  case list.list | doubleQuoted.doubleQuoted | concat.concat =>
    simp [Value.same, taggedAll_eq, sameNodes_iff ih]
  case simpleCommand.simpleCommand =>
    simp [List.lookup, Value.same, taggedAll_eq, sameNodes_iff ih.1, sameNodes_iff ih.2]
  case assign.assign => simp [List.lookup, Value.same, same_taggedOpt_iff ih]
  case patternReplacement.patternReplacement =>
    simp [List.lookup, Value.same, mk_tagged, ih.1.same_iff, same_taggedOpt_iff ih.2]
  -- All others have texts, marks and single nodes.
  all_goals simp [List.lookup, Value.same, mk_tagged, same_ofText?_iff, KnownByView.same_iff, ih]

/-- Two trees have the same view, in whatever order its fields, if they are equal. -/
theorem same_tagged_iff (a b : Node) : a.tagged.same b.tagged = true ↔ a = b := by
  induction a using induct_children generalizing b with
  | step a ih =>
    rw [same_tagged, Bool.and_eq_true, Bool.and_eq_true, beq_iff_eq, beq_iff_eq]
    constructor
    · rintro ⟨⟨htag, _⟩, hfields⟩
      exact (sameFields_iff (ctorIdx_of_tag htag) fun n hn m => ih n hn m).mp hfields
    · rintro rfl
      exact ⟨⟨rfl, rfl⟩, (sameFields_iff rfl fun n hn m => ih n hn m).mpr rfl⟩

end Node

/-- **A tree and its generic view agree.** Two trees are equal exactly if their views have the
same tag and the same value for every field, at every depth, in whatever order the fields
stand. A visit that goes from a node to its children, one after another, meets the trees whose
views are met by following the fields of the view, each once and in the same order. -/
theorem views_agree :
    (∀ a b : Node, a = b ↔ a.tagged.same b.tagged = true) ∧
      ∀ n : Node, n.preorder = n :: n.children.flatMap Node.preorder ∧
        n.tagged.preorder = n.preorder.map Node.tagged :=
  ⟨fun a b => (Node.same_tagged_iff a b).symm,
    fun n => ⟨Node.preorder_eq n, Node.preorder_tagged n⟩⟩

end ShellGrammar
