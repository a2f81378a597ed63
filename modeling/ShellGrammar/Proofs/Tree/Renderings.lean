import Mathlib
import ShellGrammar.Proofs.Text.Escaped
import ShellGrammar.Proofs.Tree.Views

/-! Both written forms of a tree keep all of it.

The form for people and the form for other programs differ in their signs only: what opens and
closes a view, what stands between its fields, and how names and strings are written. A
`Style` is a choice of signs. Where the signs can be told apart, what is written in a style can
be told from whatever follows it (`Style.Clear.write_split`): the first character of a value
tells its kind, and each part ends where the next sign begins. Strings may hold any of the
signs, since nothing in a string can be its closing quote. In the form for people tags and
names stand without quotes, so there it matters that they hold no space and no parenthesis. -/
namespace ShellGrammar

/-! ### Styles -/

/-- The signs that a view is written with. -/
structure Style where
  opening : Char
  closing : Char
  /-- In front of a field, and between the elements of a sequence. -/
  separator : Char
  tag : String → Text → Text
  /-- The name of a field, in front of its value. -/
  name : String → Text → Text
  /-- Behind the value of a field. -/
  ending : Text
  string : Text → Text → Text
  absent : Text

namespace Style

mutual

/-- A view in a style, in front of `tail`. -/
def write (w : Style) : Tagged → Text → Text
  | .mk tag fields, tail => w.opening :: w.tag tag (writeFields w fields (w.closing :: tail))

def writeFields (w : Style) : List (String × Value) → Text → Text
  | [], tail => tail
  | (name, v) :: rest, tail =>
    w.separator :: w.name name (writeValue w v (w.ending ++ writeFields w rest tail))

def writeValue (w : Style) : Value → Text → Text
  | .node n, tail => write w n tail
  | .nodes [], tail => '[' :: ']' :: tail
  | .nodes (n :: ns), tail => '[' :: write w n (writeRest w ns (']' :: tail))
  | .str t, tail => w.string t tail
  | .bool true, tail => "true".toList ++ tail
  | .bool false, tail => "false".toList ++ tail
  | .nil, tail => w.absent ++ tail

def writeRest (w : Style) : List Tagged → Text → Text
  | [], tail => tail
  | n :: ns, tail => w.separator :: write w n (writeRest w ns tail)

end

/-- `(tag (field value) …)`. -/
def debug : Style where
  opening := '('
  closing := ')'
  separator := ' '
  tag := fun tag tail => tag.toList ++ tail
  name := fun name tail => '(' :: (name.toList ++ ' ' :: tail)
  ending := [')']
  string := Text.writeWith (Text.Quoted.escape '"')
  absent := "nil".toList

/-- A JSON object. -/
def json : Style where
  opening := '\x7b'
  closing := '\x7d'
  separator := ','
  tag := fun tag tail => "\"type\":".toList ++ Text.writeWith Json.escape tag.toList tail
  name := fun name tail => Text.writeWith Json.escape name.toList (':' :: tail)
  ending := []
  string := Text.writeWith Json.escape
  absent := "null".toList

end Style

mutual

theorem Tagged.writeDebug_eq : ∀ (t : Tagged) (tail : Text), t.writeDebug tail = Style.debug.write t tail
  | .mk tag fields, tail => by
    rw [Tagged.writeDebug, Style.write, Value.writeDebugFields_eq fields]
    rfl

theorem Value.writeDebugFields_eq : ∀ (fields : List (String × Value)) (tail : Text),
    Value.writeDebugFields fields tail = Style.debug.writeFields fields tail
  | [], _ => rfl
  | (name, v) :: rest, tail => by
    rw [Value.writeDebugFields, Style.writeFields, Value.writeDebug_eq v, Value.writeDebugFields_eq rest]
    rfl

theorem Value.writeDebug_eq : ∀ (v : Value) (tail : Text), v.writeDebug tail = Style.debug.writeValue v tail
  | .node n, tail => by rw [Value.writeDebug, Style.writeValue, Tagged.writeDebug_eq n]
  | .nodes [], _ => rfl
  | .nodes (n :: ns), tail => by
    rw [Value.writeDebug, Style.writeValue, Tagged.writeDebug_eq n, Value.writeDebugRest_eq ns]
  | .str _, _ => rfl
  | .bool true, _ => rfl
  | .bool false, _ => rfl
  | .nil, _ => rfl

theorem Value.writeDebugRest_eq : ∀ (ns : List Tagged) (tail : Text),
    Value.writeDebugRest ns tail = Style.debug.writeRest ns tail
  | [], _ => rfl
  | n :: ns, tail => by
    rw [Value.writeDebugRest, Style.writeRest, Tagged.writeDebug_eq n, Value.writeDebugRest_eq ns]
    rfl

end

mutual

theorem Tagged.writeJson_eq : ∀ (t : Tagged) (tail : Text), t.writeJson tail = Style.json.write t tail
  | .mk tag fields, tail => by
    rw [Tagged.writeJson, Style.write, Value.writeJsonFields_eq fields]
    rfl

theorem Value.writeJsonFields_eq : ∀ (fields : List (String × Value)) (tail : Text),
    Value.writeJsonFields fields tail = Style.json.writeFields fields tail
  | [], _ => rfl
  | (name, v) :: rest, tail => by
    rw [Value.writeJsonFields, Style.writeFields, Value.writeJson_eq v, Value.writeJsonFields_eq rest]
    rfl

theorem Value.writeJson_eq : ∀ (v : Value) (tail : Text), v.writeJson tail = Style.json.writeValue v tail
  | .node n, tail => by rw [Value.writeJson, Style.writeValue, Tagged.writeJson_eq n]
  | .nodes [], _ => rfl
  | .nodes (n :: ns), tail => by
    rw [Value.writeJson, Style.writeValue, Tagged.writeJson_eq n, Value.writeJsonRest_eq ns]
  | .str _, _ => rfl
  | .bool true, _ => rfl
  | .bool false, _ => rfl
  | .nil, _ => rfl

theorem Value.writeJsonRest_eq : ∀ (ns : List Tagged) (tail : Text),
    Value.writeJsonRest ns tail = Style.json.writeRest ns tail
  | [], _ => rfl
  | n :: ns, tail => by
    rw [Value.writeJsonRest, Style.writeRest, Tagged.writeJson_eq n, Value.writeJsonRest_eq ns]
    rfl

end

/-! ### Styles that can be read back -/

/-- Whether a tag or a name holds neither a space nor a parenthesis. -/
def isPlain (s : String) : Bool := s.toList.all fun c => !([' ', '(', ')'].contains c)

/-- The tag and the names of a view are plain. -/
def Tagged.Simple (t : Tagged) : Prop := isPlain t.tag = true ∧ ∀ f ∈ t.fields, isPlain f.1 = true

/-- The signs of a style can be told apart, and names and strings from what follows them. -/
structure Style.Clear (w : Style) : Prop where
  tag_split : ∀ {a b s t}, isPlain a = true → isPlain b = true →
    s.head? ∈ [some w.separator, some w.closing] → t.head? ∈ [some w.separator, some w.closing] →
      w.tag a s = w.tag b t → a = b ∧ s = t
  name_split : ∀ {a b s t}, isPlain a = true → isPlain b = true → w.name a s = w.name b t →
    a = b ∧ s = t
  string_split : Splits w.string
  string_head : ∀ t tail, (w.string t tail).head? = some '"'
  absent_head : w.absent.head? = some 'n'
  opening_ne : w.opening ∉ ['[', ']', '"', 't', 'f', 'n']
  separator_ne : w.separator ∉ [w.closing, ']']

/-- Two values are of one kind. -/
inductive Value.Like : Value → Value → Prop where
  | node {a b : Tagged} : Like (.node a) (.node b)
  | nodes {as bs : List Tagged} : Like (.nodes as) (.nodes bs)
  | str {a b : Text} : Like (.str a) (.str b)
  | bool {a b : Bool} : Like (.bool a) (.bool b)
  | nil : Like .nil .nil

namespace Style
variable {w : Style}

/-- The character that a value begins with. -/
def lead (w : Style) : Value → Char
  | .node _ => w.opening
  | .nodes _ => '['
  | .str _ => '"'
  | .bool true => 't'
  | .bool false => 'f'
  | .nil => 'n'

/-- Behind a tag stands what closes the view, or a field. -/
theorem head_writeFields (fields : List (String × Value)) (tail : Text) :
    (w.writeFields fields (w.closing :: tail)).head? ∈ [some w.separator, some w.closing] := by
  match fields with
  | [] => exact List.mem_cons_of_mem _ List.mem_cons_self
  | (_, _) :: _ => exact List.mem_cons_self

namespace Clear

theorem head_writeValue (h : w.Clear) (v : Value) (tail : Text) :
    (w.writeValue v tail).head? = some (w.lead v) := by
  match v with
  | .node (.mk _ _) => rfl
  | .nodes [] => rfl
  | .nodes (_ :: _) => rfl
  | .str t => exact h.string_head t tail
  | .bool true => rfl
  | .bool false => rfl
  | .nil =>
    rw [writeValue, List.head?_append, h.absent_head]
    rfl

theorem lead_eq (h : w.Clear) {u v : Value} {s t : Text}
    (heq : w.writeValue u s = w.writeValue v t) : w.lead u = w.lead v := by
  have hhead := congrArg List.head? heq
  rw [h.head_writeValue, h.head_writeValue] at hhead
  exact Option.some.inj hhead

/-- The first character tells the kind of a value. -/
theorem like_of_lead (h : w.Clear) {u v : Value} (heq : w.lead u = w.lead v) : u.Like v := by
  have hopening := h.opening_ne
  simp only [List.mem_cons, List.not_mem_nil, or_false, not_or] at hopening
  rcases u with _ | _ | _ | (_ | _) | _ <;> rcases v with _ | _ | _ | (_ | _) | _ <;>
    first
    | exact .node
    | exact .nodes
    | exact .str
    | exact .bool
    | exact .nil
    | (simp only [lead] at heq; simp [← heq] at hopening)
    | (simp only [lead] at heq; simp [heq] at hopening)
    | cases heq

/-- No view is written so that it could be the end of a sequence. -/
theorem write_ne_bracket (h : w.Clear) (a : Tagged) (s t : Text) : w.write a s ≠ ']' :: t := by
  cases a with
  | mk tag fields => exact fun heq => h.opening_ne (by rw [(List.cons.inj heq).1]; decide)

end Clear

section Split
variable (h : w.Clear)
include h

mutual

/-- What is written in a clear style can be told from what follows it. -/
theorem write_split : ∀ (a : Tagged) {b : Tagged} {s t : Text}, (∀ v ∈ a.preorder, v.Simple) →
    (∀ v ∈ b.preorder, v.Simple) → w.write a s = w.write b t → a = b ∧ s = t
  | .mk tag fields, .mk tag' fields', s, t, ha, hb, heq => by
    rw [Tagged.preorder, List.forall_mem_cons] at ha hb
    obtain ⟨htag, hrest⟩ := h.tag_split ha.1.1 hb.1.1 (head_writeFields fields s)
      (head_writeFields fields' t) (List.cons.inj heq).2
    obtain ⟨hfields, htail⟩ := writeFields_split fields ha.1.2 hb.1.2 ha.2 hb.2 hrest
    exact ⟨congrArg₂ Tagged.mk htag hfields, htail⟩
termination_by structural a => a

theorem writeFields_split : ∀ (fs : List (String × Value)) {gs : List (String × Value)} {s t : Text},
    (∀ f ∈ fs, isPlain f.1 = true) → (∀ g ∈ gs, isPlain g.1 = true) →
    (∀ v ∈ Value.preorderFields fs, v.Simple) → (∀ v ∈ Value.preorderFields gs, v.Simple) →
    w.writeFields fs (w.closing :: s) = w.writeFields gs (w.closing :: t) → fs = gs ∧ s = t
  | [], [], s, t, _, _, _, _, heq => ⟨rfl, (List.cons.inj heq).2⟩
  | [], _ :: _, _, _, _, _, _, _, heq =>
    absurd (List.mem_cons.mpr (.inl (List.cons.inj heq).1.symm)) h.separator_ne
  | _ :: _, [], _, _, _, _, _, _, heq =>
    absurd (List.mem_cons.mpr (.inl (List.cons.inj heq).1)) h.separator_ne
  | (name, v) :: fs, (name', v') :: gs, s, t, hfs, hgs, hvs, hws, heq => by
    rw [List.forall_mem_cons] at hfs hgs
    rw [Value.preorderFields, List.forall_mem_append] at hvs hws
    obtain ⟨hname, hvalue⟩ := h.name_split hfs.1 hgs.1 (List.cons.inj heq).2
    obtain ⟨hv, hrest⟩ := writeValue_split v hvs.1 hws.1 hvalue
    obtain ⟨htails, htail⟩ := writeFields_split fs hfs.2 hgs.2 hvs.2 hws.2
      (List.append_cancel_left hrest)
    exact ⟨congrArg₂ List.cons (Prod.ext hname hv) htails, htail⟩
termination_by structural fs => fs

theorem writeValue_split : ∀ (u : Value) {v : Value} {s t : Text}, (∀ x ∈ u.preorder, x.Simple) →
    (∀ x ∈ v.preorder, x.Simple) → w.writeValue u s = w.writeValue v t → u = v ∧ s = t
  | .node a, v, s, t, hu, hv, heq =>
    match v, h.like_of_lead (h.lead_eq heq) with
    | .node b, _ => (write_split a hu hv heq).imp (congrArg Value.node) id
  | .nodes [], v, s, t, _, _, heq =>
    match v, h.like_of_lead (h.lead_eq heq) with
    | .nodes [], _ => ⟨rfl, (List.cons.inj (List.cons.inj heq).2).2⟩
    | .nodes (b :: _), _ => absurd (List.cons.inj heq).2.symm (h.write_ne_bracket b _ _)
  | .nodes (a :: as), v, s, t, hu, hv, heq =>
    match v, h.like_of_lead (h.lead_eq heq) with
    | .nodes [], _ => absurd (List.cons.inj heq).2 (h.write_ne_bracket a _ _)
    | .nodes (b :: bs), _ => by
      rw [Value.preorder, Value.preorderNodes, List.forall_mem_append] at hu hv
      obtain ⟨hfirst, hrest⟩ := write_split a hu.1 hv.1 (List.cons.inj heq).2
      obtain ⟨hothers, htail⟩ := writeRest_split as hu.2 hv.2 hrest
      exact ⟨congrArg Value.nodes (congrArg₂ List.cons hfirst hothers), htail⟩
  | .str a, v, s, t, _, _, heq =>
    match v, h.like_of_lead (h.lead_eq heq) with
    | .str b, _ => (h.string_split a b s t heq).imp (congrArg Value.str) id
  | .bool a, v, s, t, _, _, heq =>
    match a, v, h.like_of_lead (h.lead_eq heq) with
    | true, .bool true, _ => ⟨rfl, List.append_cancel_left heq⟩
    | false, .bool false, _ => ⟨rfl, List.append_cancel_left heq⟩
    | true, .bool false, _ => absurd (h.lead_eq heq) (show 't' ≠ 'f' by decide)
    | false, .bool true, _ => absurd (h.lead_eq heq) (show 'f' ≠ 't' by decide)
  | .nil, v, s, t, _, _, heq =>
    match v, h.like_of_lead (h.lead_eq heq) with
    | .nil, _ => ⟨rfl, List.append_cancel_left heq⟩
termination_by structural u => u

theorem writeRest_split : ∀ (as : List Tagged) {bs : List Tagged} {s t : Text},
    (∀ x ∈ Value.preorderNodes as, x.Simple) → (∀ x ∈ Value.preorderNodes bs, x.Simple) →
    w.writeRest as (']' :: s) = w.writeRest bs (']' :: t) → as = bs ∧ s = t
  | [], [], s, t, _, _, heq => ⟨rfl, (List.cons.inj heq).2⟩
  | [], _ :: _, _, _, _, _, heq =>
    absurd (List.mem_cons_of_mem _ (List.mem_singleton.mpr (List.cons.inj heq).1.symm)) h.separator_ne
  | _ :: _, [], _, _, _, _, heq =>
    absurd (List.mem_cons_of_mem _ (List.mem_singleton.mpr (List.cons.inj heq).1)) h.separator_ne
  | a :: as, b :: bs, s, t, ha, hb, heq => by
    rw [Value.preorderNodes, List.forall_mem_append] at ha hb
    obtain ⟨hfirst, hrest⟩ := write_split a ha.1 hb.1 (List.cons.inj heq).2
    obtain ⟨hothers, htail⟩ := writeRest_split as ha.2 hb.2 hrest
    exact ⟨congrArg₂ List.cons hfirst hothers, htail⟩
termination_by structural as => as

end

end Split

/-! ### The two styles -/

/-- Plain text ends where a character stands that is not plain. -/
theorem plain_split {a b : String} {s t : Text} (ha : isPlain a = true) (hb : isPlain b = true)
    (hs : s.head? ∈ [some ' ', some ')']) (ht : t.head? ∈ [some ' ', some ')'])
    (heq : a.toList ++ s = b.toList ++ t) : a = b ∧ s = t := by
  have htake : ∀ {c : String} {u : Text}, isPlain c = true → u.head? ∈ [some ' ', some ')'] →
      (c.toList ++ u).takeWhile (fun c => !([' ', '(', ')'].contains c)) = c.toList := by
    intro c u hc hu
    rw [List.takeWhile_append_of_pos (List.all_eq_true.mp hc)]
    cases u with
    | nil => exact List.append_nil _
    | cons d u =>
      simp only [List.head?_cons, List.mem_cons, Option.some.injEq, List.not_mem_nil, or_false] at hu
      rcases hu with rfl | rfl <;> exact List.append_nil _
  have hsame : a.toList = b.toList := by rw [← htake ha hs, heq, htake hb ht]
  rw [hsame] at heq
  exact ⟨String.toList_inj.mp hsame, List.append_cancel_left heq⟩

theorem clear_debug : debug.Clear where
  tag_split := plain_split
  name_split := by
    intro a b s t ha hb heq
    obtain ⟨hname, htail⟩ := plain_split ha hb List.mem_cons_self List.mem_cons_self
      (List.cons.inj heq).2
    exact ⟨hname, (List.cons.inj htail).2⟩
  string_split := Text.Quoted.escapes.splits
  string_head _ _ := rfl
  absent_head := rfl
  opening_ne := by decide
  separator_ne := by decide

theorem clear_json : json.Clear where
  tag_split := by
    intro a b s t _ _ _ _ heq
    exact (Json.escapes.splits _ _ _ _ (List.append_cancel_left heq)).imp String.toList_inj.mp id
  name_split := by
    intro a b s t _ _ heq
    exact (Json.escapes.splits _ _ _ _ heq).imp String.toList_inj.mp fun h => (List.cons.inj h).2
  string_split := Json.escapes.splits
  string_head _ _ := rfl
  absent_head := rfl
  opening_ne := by decide
  separator_ne := by decide

end Style

/-! ### Trees -/

namespace Node

theorem isPlain_tag (n : Node) : isPlain n.tag = true :=
  List.all_eq_true.mp (show tags.all isPlain = true by decide) n.tag
    (List.mem_of_getElem? n.tags_ctorIdx)

theorem simple_tagged (n : Node) : n.tagged.Simple := by
  have hnames : ∀ s ∈ n.fields.map (·.1), isPlain s = true := by
    cases n <;> simp only [fields, List.map_cons, List.map_nil] <;> decide
  exact ⟨n.isPlain_tag, List.forall_mem_map.mp hnames⟩

theorem simple_of_mem_preorder {n : Node} {v : Tagged} (h : v ∈ n.tagged.preorder) : v.Simple := by
  rw [preorder_tagged] at h
  obtain ⟨m, _, rfl⟩ := List.mem_map.mp h
  exact m.simple_tagged

theorem tagged_inj {a b : Node} (h : a.tagged = b.tagged) : a = b :=
  (same_tagged_iff a b).mp (h ▸ (same_tagged_iff a a).mpr rfl)

/-- What is written for a tree in a clear style is written for no other tree. -/
theorem write_inj {w : Style} (hw : w.Clear) {a b : Node}
    (h : w.write a.tagged [] = w.write b.tagged []) : a = b :=
  tagged_inj (Style.write_split hw a.tagged (fun _ => simple_of_mem_preorder)
    (fun _ => simple_of_mem_preorder) h).1

end Node

/-- **Both written forms of a tree are lossless**: trees with the same text in the form for
people are equal, and so are trees with the same text in the form for other programs. -/
theorem renderings_lossless (a b : Node) :
    (a.debugForm = b.debugForm ↔ a = b) ∧ (a.jsonForm = b.jsonForm ↔ a = b) := by
  refine ⟨⟨fun h => ?_, congrArg Node.debugForm⟩, ⟨fun h => ?_, congrArg Node.jsonForm⟩⟩
  · simp only [Node.debugForm, Tagged.debugForm, Tagged.writeDebug_eq] at h
    exact Node.write_inj Style.clear_debug h
  · simp only [Node.jsonForm, Tagged.jsonForm, Tagged.writeJson_eq] at h
    exact Node.write_inj Style.clear_json h

end ShellGrammar
