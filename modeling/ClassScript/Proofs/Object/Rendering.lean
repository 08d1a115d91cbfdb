import ClassScript.Machine.State
import ClassScript.Object.Marked
import ClassScript.Proofs.Text.Order
import Mathlib.Data.String.Basic

/-! Rendering of any objects, however they refer to each other. The marks that are set are those of
the objects on the way to the value that is rendered; so a rendering ends, gives the tree that the
objects unfold to, and leaves the marks as they were. -/
namespace ClassScript

/-! The fields of an object, by the settings they come from. -/

/-- The fields after these settings, of which the first was made first. -/
def Fields.ofSettings (settings : List (String × Value)) : Fields :=
  settings.foldl (fun fields setting => fields.set setting.1 setting.2) []

/-- Objects by the settings of their fields. -/
def Objects.ofSettings (settings : List (List (String × Value))) : Objects :=
  ⟨(settings.map Fields.ofSettings).toArray⟩

/-- The value that the name was set to last. -/
def lastSet? (settings : List (String × Value)) (name : String) : Option Value :=
  settings.reverse.lookup name

namespace Fields

variable {fields : Fields} {name : String} {value : Value}

/-- The names are in their strict order. -/
def Ordered (fields : Fields) : Prop := fields.Pairwise fun a b => a.1 < b.1

theorem mem_set {field : String × Value} (h : field ∈ fields.set name value) :
    field = (name, value) ∨ field ∈ fields := by
  induction fields with
  | nil => exact .inl (List.mem_singleton.mp h)
  | cons first fields ih =>
    obtain ⟨other, old⟩ := first
    rw [set] at h
    split at h
    case isTrue => exact List.mem_cons.mp h
    case isFalse =>
      split at h
      case isTrue => exact (List.mem_cons.mp h).imp_right (List.mem_cons_of_mem _)
      case isFalse =>
        obtain rfl | h := List.mem_cons.mp h
        · exact .inr (by simp)
        · exact (ih h).imp_right (List.mem_cons_of_mem _)

theorem Ordered.set (h : fields.Ordered) (name : String) (value : Value) :
    (fields.set name value).Ordered := by
  induction fields with
  | nil => exact List.pairwise_singleton _ _
  | cons first fields ih =>
    obtain ⟨other, old⟩ := first
    obtain ⟨behind, rest⟩ := List.pairwise_cons.mp h
    rw [Fields.set]
    split
    case isTrue before =>
      refine List.pairwise_cons.mpr ⟨fun field hf => ?_, h⟩
      obtain rfl | hf := List.mem_cons.mp hf
      · exact before
      · exact lt_trans before (behind field hf)
    case isFalse notBefore =>
      split
      case isTrue same =>
        subst same
        exact List.pairwise_cons.mpr ⟨behind, rest⟩
      case isFalse different =>
        refine List.pairwise_cons.mpr ⟨fun field hf => ?_, ih rest⟩
        obtain rfl | hf := mem_set hf
        · exact lt_of_le_of_ne (not_lt.mp notBefore) (Ne.symm different)
        · exact behind field hf

theorem ofSettings_append (settings : List (String × Value)) (name : String) (value : Value) :
    ofSettings (settings ++ [(name, value)]) = (ofSettings settings).set name value := by
  simp [ofSettings]

theorem ofSettings_ordered (settings : List (String × Value)) : (ofSettings settings).Ordered := by
  induction settings using List.reverseRecOn with
  | nil => exact .nil
  | append_singleton settings setting ih =>
    rw [ofSettings_append]
    exact ih.set setting.1 setting.2

theorem lookup_ofSettings (settings : List (String × Value)) (name : String) :
    (ofSettings settings).lookup name = lastSet? settings name := by
  induction settings using List.reverseRecOn with
  | nil => rfl
  | append_singleton settings setting ih =>
    obtain ⟨last, value⟩ := setting
    rw [ofSettings_append, lookup_set, ih, lastSet?, lastSet?, List.reverse_append,
      List.reverse_singleton, List.singleton_append, lookup_cons]

theorem Ordered.mem_iff_lookup (h : fields.Ordered) :
    (name, value) ∈ fields ↔ fields.lookup name = some value := by
  induction fields with
  | nil => simp
  | cons first fields ih =>
    obtain ⟨other, old⟩ := first
    obtain ⟨behind, rest⟩ := List.pairwise_cons.mp h
    rw [List.mem_cons, ih rest, lookup_cons]
    split
    case isTrue same =>
      subst same
      have absent : ¬ fields.lookup name = some value := fun hl =>
        lt_irrefl _ (behind (_, value) ((ih rest).mpr hl))
      simp [absent, eq_comm]
    case isFalse different => simp [different]

end Fields

/-- Lists in a strict order that have the same members are the same. -/
theorem eq_of_ordered {α : Type} {r : α → α → Prop} (asymm : ∀ a b, r a b → ¬ r b a)
    {xs ys : List α} (hx : xs.Pairwise r) (hy : ys.Pairwise r) (same : ∀ a, a ∈ xs ↔ a ∈ ys) :
    xs = ys := by
  have nodup : ∀ {zs : List α}, zs.Pairwise r → zs.Nodup := by
    intro zs hz
    refine hz.imp fun {a b} hab heq => ?_
    subst heq
    exact asymm a a hab hab
  have perm := (List.perm_ext_iff_of_nodup (nodup hx) (nodup hy)).mpr same
  exact perm.eq_of_pairwise (fun a b _ _ hab hba => absurd hba (asymm a b hab)) hx hy

/-- The last settings alone decide the fields, whatever came before them and in which order. -/
theorem Fields.ofSettings_congr {settings settings' : List (String × Value)}
    (h : ∀ name, lastSet? settings name = lastSet? settings' name) :
    ofSettings settings = ofSettings settings' := by
  have ordered := ofSettings_ordered settings
  have ordered' := ofSettings_ordered settings'
  refine eq_of_ordered (fun a b => lt_asymm) ordered ordered' fun (name, value) => ?_
  rw [ordered.mem_iff_lookup, ordered'.mem_iff_lookup, lookup_ofSettings, lookup_ofSettings, h]

/-- The settings of the fields of an object. -/
def settingsOf (graph : List (List (String × Value))) (id : Nat) : List (String × Value) :=
  graph[id]?.getD []

/-- The same objects have the same fields with the same values in the end. -/
structure SameFields (graph graph' : List (List (String × Value))) : Prop where
  length : graph.length = graph'.length
  last : ∀ id name, lastSet? (settingsOf graph id) name = lastSet? (settingsOf graph' id) name

namespace Objects

variable {graph graph' : List (List (String × Value))}

theorem size_ofSettings (graph : List (List (String × Value))) :
    (ofSettings graph).all.size = graph.length := by simp [ofSettings]

theorem fields_ofSettings (graph : List (List (String × Value))) (id : Nat) :
    (ofSettings graph).fields id = Fields.ofSettings (settingsOf graph id) := by
  simp only [fields, ofSettings, settingsOf, List.getElem?_toArray, List.getElem?_map]
  cases graph[id]? <;> rfl

theorem ofSettings_congr (h : SameFields graph graph') : ofSettings graph = ofSettings graph' := by
  have same : graph.map Fields.ofSettings = graph'.map Fields.ofSettings := by
    refine List.ext_getElem (by simp [h.length]) fun id hl hr => ?_
    have hid : id < graph.length := by simpa using hl
    have hid' : id < graph'.length := by simpa using hr
    have last := h.last id
    simp only [settingsOf, List.getElem?_eq_getElem hid, List.getElem?_eq_getElem hid',
      Option.getD_some] at last
    simp only [List.getElem_map]
    exact Fields.ofSettings_congr last
  rw [ofSettings, ofSettings, same]

end Objects

/-- The tree that a value unfolds to inside the objects of a path. An object of the path becomes a
mark. Any other has a member for each of its fields, in the strict order of the bytes of their
names. -/
inductive Unfolds (graph : List (List (String × Value))) : List Nat → Value → Json → Prop
  | null {path : List Nat} : Unfolds graph path .null .null
  | bool {path : List Nat} (value : Bool) : Unfolds graph path (.bool value) (.bool value)
  | number {path : List Nat} (value : Float) :
    Unfolds graph path (.number value) (Number.toJson value)
  | string {path : List Nat} (text : String) : Unfolds graph path (.string text) (.string text)
  | function {path : List Nat} (id : Nat) (code : Closure) :
    Unfolds graph path (.function id code) (.string ("<fn " ++ code.name ++ ">"))
  | classRef {path : List Nat} (c : Class) :
    Unfolds graph path (.classRef c) (.string ("<class " ++ c.name ++ ">"))
  | circular {path : List Nat} {id : Nat} {ofClass : Class} (inside : id ∈ path) :
    Unfolds graph path (.object id ofClass) (.string "[Circular]")
  | object {path : List Nat} {id : Nat} {ofClass : Class} {fields : List (String × Value)}
    {members : List (String × Json)} (outside : id ∉ path)
    (held : ∀ name value, (name, value) ∈ fields ↔ lastSet? (settingsOf graph id) name = some value)
    (ordered : fields.Pairwise fun a b => Text.encode a.1 < Text.encode b.1)
    (named : members.map Prod.fst = fields.map Prod.fst)
    (unfolded : ∀ (i : Nat) (field : String × Value) (member : String × Json),
      fields[i]? = some field → members[i]? = some member →
        Unfolds graph (id :: path) field.2 member.2) :
    Unfolds graph path (.object id ofClass) (.object members)

section

variable {graph : List (List (String × Value))} {objects : Objects} {path : List Nat}
  {value : Value}

/-- A value unfolds to one tree. -/
theorem Unfolds.unique {json json' : Json} (h : Unfolds graph path value json)
    (h' : Unfolds graph path value json') : json = json' := by
  induction h generalizing json' with
  | null | bool | number | string | function | classRef => cases h'; rfl
  | circular inside =>
    cases h' with
    | circular => rfl
    | object outside => exact absurd inside outside
  | @object path id ofClass fields members outside held ordered named unfolded ih =>
    cases h' with
    | circular inside => exact absurd inside outside
    | @object _ _ _ fields' members' _ held' ordered' named' unfolded' =>
      obtain rfl : fields = fields' :=
        eq_of_ordered (fun a b => List.lt_asymm) ordered ordered' fun (name, value) =>
          (held name value).trans (held' name value).symm
      have names : members.map Prod.fst = members'.map Prod.fst := named.trans named'.symm
      have lengths : members.length = fields.length := by simpa using congrArg List.length named
      have lengths' : members'.length = fields.length := by simpa using congrArg List.length named'
      refine congrArg Json.object
        (List.ext_getElem (lengths.trans lengths'.symm) fun i hi hi' => ?_)
      have name : members[i].1 = members'[i].1 := by
        simpa [hi, hi'] using congrArg (·[i]?) names
      have hf : i < fields.length := lengths ▸ hi
      have tree : members[i].2 = members'[i].2 :=
        ih i fields[i] members[i] (List.getElem?_eq_getElem hf) (List.getElem?_eq_getElem hi)
          (unfolded' i fields[i] members'[i] (List.getElem?_eq_getElem hf)
            (List.getElem?_eq_getElem hi'))
      exact Prod.ext name tree

theorem membersIn_eq (objects : Objects) (path : List Nat) (fields : Fields) :
    membersIn objects path fields =
      fields.map fun field => (field.1, field.2.toJsonIn objects path) := by
  induction fields with
  | nil => rw [membersIn, List.map_nil]
  | cons field fields ih => rw [membersIn, ih, List.map_cons]

theorem Value.toJsonIn_inside {id : Nat} (ofClass : Class) (h : id ∈ path) :
    (Value.object id ofClass).toJsonIn objects path = circularMark := by
  rw [toJsonIn, dif_pos (by simpa using h)]

theorem Value.toJsonIn_outside {id : Nat} (ofClass : Class) (h : id ∉ path) :
    (Value.object id ofClass).toJsonIn objects path =
      .object ((objects.fields id).map fun field =>
        (field.1, field.2.toJsonIn objects (id :: path))) := by
  rw [toJsonIn, dif_neg (by simpa using h), ← membersIn_eq, Objects.fields]
  split
  case h_1 fields hf => rw [hf, Option.getD_some]
  case h_2 hn => rw [hn, Option.getD_none, membersIn]

/-- Inside an object with fields fewer objects are left to be rendered. -/
theorem unrendered_inside {id : Nat} {field : String × Value} (outside : id ∉ path)
    (h : field ∈ objects.fields id) : unrendered objects (id :: path) <
    unrendered objects path := by
  refine unrendered_lt (Nat.lt_of_not_le fun beyond => ?_) (by simpa using outside)
  rw [Objects.fields, Array.getElem?_eq_none beyond] at h
  simp at h

theorem unrendered_nil (objects : Objects) : unrendered objects [] = objects.all.size := by
  simp [unrendered]

theorem toJsonIn_unfolds (graph : List (List (String × Value))) (path : List Nat) (value : Value) :
    Unfolds graph path value (value.toJsonIn (.ofSettings graph) path) := by
  induction hn : unrendered (.ofSettings graph) path using Nat.strong_induction_on
    generalizing path value with
  | _ n ih =>
    subst hn
    cases value with
    | null => rw [Value.toJsonIn]; exact .null
    | bool value => rw [Value.toJsonIn]; exact .bool value
    | number value => rw [Value.toJsonIn]; exact .number value
    | string text => rw [Value.toJsonIn]; exact .string text
    | function id code => rw [Value.toJsonIn]; exact .function id code
    | classRef c => rw [Value.toJsonIn]; exact .classRef c
    | object id ofClass =>
      by_cases inside : id ∈ path
      · rw [Value.toJsonIn_inside ofClass inside]
        exact .circular inside
      · have ordered := Fields.ofSettings_ordered (settingsOf graph id)
        rw [← Objects.fields_ofSettings] at ordered
        rw [Value.toJsonIn_outside ofClass inside]
        refine .object inside (fun name value => ?_) (ordered.imp Text.encode_lt) (by simp) ?_
        · rw [ordered.mem_iff_lookup, Objects.fields_ofSettings, Fields.lookup_ofSettings]
        · intro i field member hf hm
          rw [List.getElem?_map, hf] at hm
          obtain rfl := Option.some.inj hm
          exact ih _ (unrendered_inside inside (List.mem_of_getElem? hf)) _ _ rfl

end

namespace Marks

/-- The marks while the objects of a path are being rendered. -/
def along (path : List Nat) : Marks := fun id => path.contains id

theorem put_true (path : List Nat) (id : Nat) : (along path).put id true = along (id :: path) := by
  funext other
  by_cases same : other = id <;> simp [put, along, same]

theorem put_false {path : List Nat} {id : Nat} (outside : id ∉ path) :
    (along (id :: path)).put id false = along path := by
  funext other
  by_cases same : other = id <;> simp [put, along, same, outside]

end Marks

namespace Rendering

open Marks

variable {objects : Objects} {path : List Nat}

theorem replace_run (id : Nat) (mark : Bool) (marks : Marks) :
    (replace id mark).run marks = some (marks id, marks.put id mark) := rfl

/-- Members are rendered with the marks as they are, if each value leaves them so. -/
theorem members_run {render : Value → Rendering Json} {tree : Value → Json} {marks : Marks}
    {fields : Fields}
    (h : ∀ field ∈ fields, (render field.2).run marks = some (tree field.2, marks)) :
    (members render fields).run marks =
      some (fields.map fun field => (field.1, tree field.2), marks) := by
  induction fields with
  | nil => rfl
  | cons field fields ih =>
    have first := h field (by simp)
    have rest := ih fun other hm => h other (List.mem_cons_of_mem _ hm)
    simp only [members, StateT.run_bind, first, rest, Option.bind_eq_bind, Option.bind_some,
      List.map_cons]
    rfl

/-- An object that is being rendered keeps its mark. -/
theorem object_run_inside (render : Value → Rendering Json) {id : Nat} (h : id ∈ path) :
    (object render objects id).run (along path) = some (circularMark, along path) := by
  have marked : along path id = true := by simpa [along] using h
  have kept : (along path).put id true = along path := by
    funext other
    by_cases same : other = id <;> simp [put, same, marked]
  simp only [object, StateT.run_bind, replace_run, marked, kept, Option.bind_eq_bind,
    Option.bind_some, if_true]
  rfl

/-- Any other has its mark set while its fields are rendered, and cleared behind that. -/
theorem object_run_outside {render : Value → Rendering Json} {tree : Value → Json} {id : Nat}
    (outside : id ∉ path) (h : ∀ field ∈ objects.fields id,
      (render field.2).run (along (id :: path)) = some (tree field.2, along (id :: path))) :
    (object render objects id).run (along path) =
      some (.object ((objects.fields id).map fun field => (field.1, tree field.2)),
        along path) := by
  have unmarked : along path id = false := by simpa [along] using outside
  simp only [object, StateT.run_bind, replace_run, unmarked, put_true, Option.bind_eq_bind,
    Option.bind_some, Bool.false_eq_true, if_false, members_run h, put_false outside]
  rfl

/-- With the marks of a path set, a rendering gives the tree inside the path and leaves the marks as
they are. As many objects lie inside each other as are not on the path, and one that has no fields
or is met again. -/
theorem value_run {depth : Nat} {path : List Nat} (deep : unrendered objects path < depth)
    (v : Value) :
    (value objects depth v).run (along path) = some (v.toJsonIn objects path, along path) := by
  induction depth generalizing path v with
  | zero => exact absurd deep (Nat.not_lt_zero _)
  | succ depth ih =>
    cases v with
    | null | bool | number | string | function | classRef => rw [value, Value.toJsonIn]; rfl
    | object id ofClass =>
      rw [value]
      by_cases inside : id ∈ path
      · rw [object_run_inside _ inside, Value.toJsonIn_inside ofClass inside]
      · rw [Value.toJsonIn_outside ofClass inside]
        refine object_run_outside inside fun field hf => ih ?_ field.2
        exact Nat.lt_of_lt_of_le (unrendered_inside inside hf) (Nat.le_of_lt_succ deep)

/-- Rendering once more gives the same tree. -/
theorem replicate_run {render : Rendering Json} {marks : Marks} {json : Json}
    (h : render.run marks = some (json, marks)) (times : Nat) :
    ((List.replicate times render).mapM id).run marks =
      some (List.replicate times json, marks) := by
  induction times with
  | zero => rfl
  | succ times ih =>
    simp only [List.replicate_succ, List.mapM_cons, id, StateT.run_bind, h, ih,
      Option.bind_eq_bind, Option.bind_some]
    rfl

end Rendering

/-- Rendering a value ends, whatever the objects are and however they refer to each other: it needs
no more depth than there are objects, gives the one tree that the value unfolds to, and leaves all
marks clear, so it gives that tree as often as it is repeated. That tree is what is printed. It
depends on the values that the fields have in the end, and not on the order in which they were
set. -/
theorem rendering_unfolds (graph : List (List (String × Value))) (value : Value) :
    ∃ json,
      (∀ depth, graph.length < depth →
        (Rendering.value (.ofSettings graph) depth value).run .clear = some (json, .clear) ∧
        ∀ times, ((List.replicate times (Rendering.value (.ofSettings graph) depth value)).mapM
          id).run .clear = some (List.replicate times json, .clear)) ∧
      (∀ tree, Unfolds graph [] value tree ↔ tree = json) ∧
      (∀ machine : Machine, Machine.print value { machine with objects := .ofSettings graph } =
        Machine.onSink (Sink.write (Text.encode (json.indented 0 ++ "\n")))
          { machine with objects := .ofSettings graph }) ∧
      ∀ graph', SameFields graph graph' → Objects.ofSettings graph' = .ofSettings graph := by
  have unfolds : Unfolds graph [] value (value.toJson (.ofSettings graph)) :=
    toJsonIn_unfolds graph [] value
  refine ⟨value.toJson (.ofSettings graph), fun depth deep => ?_, fun tree => ?_,
    fun machine => rfl, fun graph' same => (Objects.ofSettings_congr same).symm⟩
  · have enough : unrendered (.ofSettings graph) [] < depth := by
      rwa [unrendered_nil, Objects.size_ofSettings]
    have rendered := Rendering.value_run enough value
    exact ⟨rendered, Rendering.replicate_run rendered⟩
  · exact ⟨fun h => h.unique unfolds, fun h => h ▸ unfolds⟩

namespace SelfAndTwin

def ofClass : Class := ⟨⟨0, "Node", [], []⟩, []⟩

def root : Value := .object 0 ofClass

def twin : Value := .object 1 ofClass

/-- An object that refers to itself and twice to another one. -/
def graph : List (List (String × Value)) :=
  [[("two", twin), ("self", .null), ("one", twin), ("self", root)], []]

/-- The same fields, set in another order and each of them once. -/
def reordered : List (List (String × Value)) := [[("self", root), ("one", twin), ("two", twin)], []]

theorem same_fields : SameFields graph reordered := by
  refine ⟨rfl, fun id name => ?_⟩
  match id with
  | 0 =>
    simp only [graph, reordered, settingsOf, lastSet?, List.getElem?_cons_zero, Option.getD_some,
      List.reverse_cons, List.reverse_nil, List.nil_append, List.cons_append, lookup_cons]
    split_ifs <;> simp_all
  | 1 => rfl
  | id + 2 => rfl

/-- The object is cut off inside itself, and the other one is written out both times. -/
theorem self_cut_off :
    (Rendering.value (.ofSettings graph) 3 root).run .clear =
        some (.object [("one", .object []), ("self", .string "[Circular]"), ("two", .object [])],
          .clear) ∧
      Objects.ofSettings reordered = .ofSettings graph := by
  obtain ⟨json, rendered, -, -, congr⟩ := rendering_unfolds graph root
  have first := (rendered 3 (by decide)).1
  have tree : ((Rendering.value (.ofSettings graph) 3 root).run .clear).map Prod.fst =
      some (.object [("one", .object []), ("self", .string "[Circular]"),
        ("two", .object [])]) := by
    with_unfolding_all rfl
  rw [first] at tree
  obtain rfl := Option.some.inj tree
  exact ⟨first, congr reordered same_fields⟩

end SelfAndTwin

end ClassScript
