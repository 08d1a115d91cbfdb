import ClassScript.Proofs.Scoping.WellFormed
import Mathlib.Data.List.Perm.Basic
import Mathlib.Data.List.Perm.Subperm

/-! Programs in which no two declarations introduce the same name. Around a part of such a program
no two scopes declare the same name, except for the words of a receiver. -/
namespace ClassScript

mutual

/-- The names that the declarations in a statement introduce, those of parameters included. -/
def Stmt.introduced : Stmt → List String
  | .letDecl name _ | .constDecl name _ => [name.lexeme]
  | .block body => Stmt.introducedAll body
  | .cond _ thenBranch elseBranch => thenBranch.introduced ++ Stmt.introducedElse elseBranch
  | .loop _ body => body.introduced
  | .function d => d.name.lexeme :: d.introduced
  | .classDecl name _ methods statics =>
    name.lexeme :: (FunctionDecl.introducedAll methods ++ FunctionDecl.introducedAll statics)
  | .expr _ | .print _ | .ret _ _ => []

def Stmt.introducedAll : List Stmt → List String
  | [] => []
  | s :: ss => s.introduced ++ Stmt.introducedAll ss

def Stmt.introducedElse : Option Stmt → List String
  | none => []
  | some s => s.introduced

def FunctionDecl.introduced : FunctionDecl → List String
  | ⟨_, params, body⟩ => params.map Token.lexeme ++ Stmt.introducedAll body

def FunctionDecl.introducedAll : List FunctionDecl → List String
  | [] => []
  | d :: ds => d.introduced ++ FunctionDecl.introducedAll ds

end

namespace Stmt

/-- The names that are introduced inside of a statement: in its branches and its bodies. -/
def inner (s : Stmt) : List String :=
  s.branches.flatMap introduced ++
    s.frames.flatMap fun frame => frame.parameters ++ introducedAll frame.body

theorem introducedAll_eq (ss : List Stmt) : introducedAll ss = ss.flatMap introduced := by
  induction ss with
  | nil => simp [introducedAll]
  | cons s ss ih => rw [introducedAll, ih, List.flatMap_cons]

theorem introduced_eq (s : Stmt) : s.introduced = s.declares?.toList ++ s.inner := by
  have routines (superclass : Option Expr) (isStatic : Bool) (ds : List FunctionDecl) :
      FunctionDecl.introducedAll ds =
        (ds.map (Scoping.Frame.method superclass isStatic)).flatMap fun frame =>
          frame.parameters ++ introducedAll frame.body := by
    induction ds with
    | nil => simp [FunctionDecl.introducedAll]
    | cons d ds ih =>
      obtain ⟨name, params, body⟩ := d
      rw [FunctionDecl.introducedAll, ih, FunctionDecl.introduced]
      rfl
  cases s with
  | expr | print | letDecl | constDecl | ret =>
    simp [introduced, inner, declares?, branches, frames]
  | block ss =>
    simp [introduced, inner, declares?, branches, frames, Scoping.Frame.parameters,
      Scoping.Frame.body]
  | cond condition thenBranch elseBranch =>
    cases elseBranch <;> simp [introduced, introducedElse, inner, declares?, branches, frames]
  | loop condition body => simp [introduced, inner, declares?, branches, frames]
  | function d =>
    obtain ⟨name, params, body⟩ := d
    simp [introduced, FunctionDecl.introduced, inner, declares?, branches, frames,
      Scoping.Frame.parameters, Scoping.Frame.body]
  | classDecl name superclass methods statics =>
    rw [introduced, routines superclass false, routines superclass true, inner, frames,
      List.flatMap_append]
    rfl

theorem introducedAll_perm (ss : List Stmt) :
    (introducedAll ss).Perm (declaredBy ss ++ ss.flatMap inner) := by
  rw [introducedAll_eq, declaredBy, List.filterMap_eq_flatMap_toList, funext introduced_eq]
  exact (List.flatMap_append_perm ss _ inner).symm

/-- What is introduced inside of one of several statements is introduced in addition to what they
declare. -/
theorem inner_subperm {ss : List Stmt} {s : Stmt} (h : s ∈ ss) :
    (s.inner ++ declaredBy ss).Subperm (introducedAll ss) := by
  have inside : s.inner.Sublist (ss.flatMap inner) :=
    List.sublist_flatten_of_mem (List.mem_map_of_mem h)
  refine List.Subperm.trans ?_ (introducedAll_perm ss).symm.subperm
  exact (inside.append_right _).subperm.trans List.perm_append_comm.subperm

end Stmt

/-- No two declarations of the program introduce the same name. -/
def Unique (program : List Stmt) : Prop := (Stmt.introducedAll program).Nodup

namespace Scoping

/-- The names that the scope of the body of a frame declares. -/
def Frame.own (frame : Frame) : List String := frame.parameters ++ Stmt.declaredBy frame.body

def Fragment.inner : Fragment → List String
  | stmt s => s.inner
  | expr _ | exprs _ | stmts _ | routine _ | methods _ _ => []

namespace Stands

variable {program : List Stmt} {f : Fragment} {around : List Enclosure}

/-- What is introduced inside of a part, around it and at the top level is introduced apart. -/
theorem introduced_subperm (h : Stands program f around) :
    (f.inner ++ (around.flatMap (·.frame.own) ++ Stmt.declaredBy program)).Subperm
      (Stmt.introducedAll program) := by
  induction h with
  | topLevel hs => exact Stmt.inner_subperm hs
  | @inside outer around frame front s behind _ hf hb ih =>
    have member : s ∈ frame.body := hb ▸ List.mem_append_right _ List.mem_cons_self
    have body : (frame.parameters ++ (s.inner ++ Stmt.declaredBy frame.body)).Subperm
        (frame.parameters ++ Stmt.introducedAll frame.body) :=
      (List.subperm_append_left _).mpr (Stmt.inner_subperm member)
    have whole : (frame.parameters ++ Stmt.introducedAll frame.body).Sublist outer.inner := by
      refine List.Sublist.trans (List.sublist_flatten_of_mem ?_) (List.sublist_append_right _ _)
      exact List.mem_map.mpr ⟨frame, hf, rfl⟩
    have here : (s.inner ++ frame.own).Subperm outer.inner :=
      (List.perm_append_comm_assoc _ _ _).subperm.trans (body.trans whole.subperm)
    rw [Fragment.inner, List.flatMap_cons, List.append_assoc, ← List.append_assoc]
    exact ((List.subperm_append_right _).mpr here).trans ih
  | @branch s b around _ hb ih =>
    have here : b.inner.Sublist s.inner := by
      refine List.Sublist.trans ?_ ((List.sublist_flatten_of_mem (List.mem_map_of_mem hb)).trans
        (List.sublist_append_left _ _))
      rw [Stmt.introduced_eq]
      exact List.sublist_append_right _ _
    exact (here.append_right _).subperm.trans ih
  | expression _ _ ih => exact (List.sublist_append_right _ _).subperm.trans ih
  | operand _ _ ih => exact ih

end Stands

/-- A word for a receiver. -/
def IsReceiver (name : String) : Prop := name = "this" ∨ name = "super"

/-- What the body of a frame declares are no words for a receiver. -/
structure Frame.Proper (frame : Frame) : Prop where
  body : Stmt.ProperAll frame.body
  names : ∀ x ∈ frame.own, ¬ IsReceiver x

theorem not_isReceiver {t : Token} (h : t.IsName) : ¬ IsReceiver t.lexeme :=
  fun hw => hw.elim h.ne_this h.ne_super

theorem declaredBy_names {ss : List Stmt} (h : Stmt.ProperAll ss) :
    ∀ x ∈ Stmt.declaredBy ss, ¬ IsReceiver x := by
  intro x hx
  obtain ⟨s, hs, hd⟩ := List.mem_filterMap.mp hx
  have proper := Stmt.properAll_iff.mp h s hs
  have declared := Stmt.declared_eq proper
  rw [hd] at declared
  rcases declared_cases proper with hn | ⟨name, hn, he⟩
  · cases declared.symm.trans hn
  · cases declared.symm.trans he
    exact not_isReceiver hn

theorem Frame.proper {s : Stmt} (h : s.Proper) {frame : Frame} (hf : frame ∈ s.frames) :
    frame.Proper := by
  obtain ⟨names, body⟩ := h.framed hf
  refine ⟨body, fun x hx => ?_⟩
  rcases List.mem_append.mp hx with hx | hx
  · obtain ⟨t, ht, rfl⟩ := names x hx
    exact not_isReceiver ht
  · exact declaredBy_names body x hx

theorem receiver_isReceiver (frame : Frame) : ∀ xs ∈ frame.receiver, ∀ x ∈ xs, IsReceiver x := by
  intro xs hs x hx
  cases frame with
  | block | function => cases hs
  | method superclass isStatic d =>
    cases List.mem_singleton.mp hs
    cases superclass <;> simp_all [IsReceiver, or_comm]

namespace Stands

variable {program : List Stmt} {f : Fragment} {around : List Enclosure}

theorem proper (h : Stands program f around) (hp : Stmt.ProperAll program) :
    f.Proper ∧ ∀ c ∈ around, c.frame.Proper ∧ c.front <+: c.frame.body := by
  induction h with
  | topLevel hs => exact ⟨Stmt.properAll_iff.mp hp _ hs, nofun⟩
  | @inside outer around frame front s behind _ hf hb ih =>
    have frameProper : frame.Proper := Frame.proper ih.1 hf
    have whole : frame.body = (front ++ [s]) ++ behind := by simp [hb]
    refine ⟨Stmt.properAll_iff.mp frameProper.body s (by simp [hb]), ?_⟩
    rintro c (_ | ⟨_, hc⟩)
    · exact ⟨frameProper, behind, whole.symm⟩
    · exact ih.2 c hc
  | branch _ hb ih => exact ⟨(Stmt.Proper.branch ih.1 hb).1, ih.2⟩
  | expression _ _ ih | operand _ _ ih => exact ⟨trivial, ih.2⟩

end Stands

/-- No name but a word for a receiver is declared in two of the scopes. -/
def Apart : List (List String) → Prop :=
  List.Pairwise fun xs ys => ∀ x ∈ xs, x ∈ ys → IsReceiver x

/-- What is known by then in each of the scopes is declared there, and a word for a receiver is
known from the start. -/
def Covers : List (List String) → List (List String) → Prop :=
  List.Forall₂ fun known declared => known ⊆ declared ∧ ∀ x ∈ declared, IsReceiver x → x ∈ known

section Around

variable {program : List Stmt} {f : Fragment} {around : List Enclosure}

theorem names_eq {frame : Frame} (h : frame.Proper) :
    frame.names = frame.own :: frame.receiver := by
  rw [Frame.names, Frame.own, Stmt.declaredBy_eq h.body]

theorem covers_around (h : ∀ c ∈ around, c.frame.Proper ∧ c.front <+: c.frame.body) :
    Covers (around.flatMap Enclosure.scopes) (around.flatMap (·.frame.names)) := by
  induction around with
  | nil => exact .nil
  | cons c around ih =>
    obtain ⟨proper, ahead⟩ := h c List.mem_cons_self
    rw [List.flatMap_cons, List.flatMap_cons, Enclosure.scopes, names_eq proper]
    have own : (c.frame.parameters ++ Stmt.declaredBy c.front).Sublist c.frame.own :=
      (ahead.sublist.filterMap _).append_left _
    have receiver : Covers c.frame.receiver c.frame.receiver :=
      List.forall₂_same.mpr fun xs _ => ⟨List.Subset.refl _, fun x hx _ => hx⟩
    refine List.rel_append (.cons ⟨own.subset, fun x hx hr => ?_⟩ receiver)
      (ih fun c' hc => h c' (List.mem_cons_of_mem _ hc))
    exact absurd hr (proper.names x hx)

/-- Around a part of the program the scopes are apart, from each other and from the top level. -/
theorem Stands.apart (h : Stands program f around) (hp : Stmt.ProperAll program)
    (hu : Unique program) : Apart (around.flatMap (·.frame.names)) ∧
      ∀ xs ∈ around.flatMap (·.frame.names), ∀ x ∈ xs, x ∈ Stmt.declaredAll program →
        IsReceiver x := by
  have proper := (h.proper hp).2
  obtain ⟨xs, perm, sub⟩ := h.introduced_subperm
  have distinct := (perm.nodup_iff.mp (sub.nodup hu)).of_append_right
  obtain ⟨owns, -, top⟩ := List.nodup_append'.mp distinct
  have own_or {c : Enclosure} (hc : c ∈ around) {xs : List String} (hx : xs ∈ c.frame.names)
      {x : String} (hm : x ∈ xs) : x ∈ c.frame.own ∨ IsReceiver x := by
    rw [names_eq (proper c hc).1] at hx
    rcases List.mem_cons.mp hx with rfl | hx
    · exact .inl hm
    · exact .inr (receiver_isReceiver _ _ hx _ hm)
  refine ⟨List.pairwise_flatMap.mpr ⟨?_, ?_⟩, ?_⟩
  · intro c hc
    rw [names_eq (proper c hc).1]
    refine List.pairwise_cons.mpr ⟨fun ys hy x _ hm => receiver_isReceiver _ _ hy _ hm, ?_⟩
    cases c.frame with
    | block | function => exact .nil
    | method => exact List.pairwise_singleton _ _
  · refine (List.nodup_flatMap.mp owns).2.imp_of_mem
      fun {a b} ha hb apart xs hx ys hy x hm hm' => ?_
    rcases own_or ha hx hm with hm | hr
    · rcases own_or hb hy hm' with hm' | hr
      · exact absurd hm' (apart hm)
      · exact hr
    · exact hr
  · intro xs hx x hm hd
    obtain ⟨c, hc, hx⟩ := List.mem_flatMap.mp hx
    rcases own_or hc hx hm with hm | hr
    · rw [← Stmt.declaredBy_eq hp] at hd
      exact absurd hd (top (List.mem_flatMap.mpr ⟨c, hc, hm⟩))
    · exact hr

/-- A word for a receiver is found behind the scope of the body of the nearest method. -/
theorem word_distance {inner outer : List Enclosure} {superclass : Option Expr} {isStatic : Bool}
    {d : FunctionDecl} {front : List Stmt} {word : String}
    (h : ∀ c ∈ inner ++ ⟨.method superclass isStatic d, front⟩ :: outer,
      c.frame.Proper ∧ c.front <+: c.frame.body)
    (hi : ∀ c ∈ inner, c.frame.heritage? = none) (hr : IsReceiver word)
    (hw : ∀ xs ∈ (Frame.method superclass isStatic d).receiver, word ∈ xs) :
    lexicalDistance? word (inner ++ ⟨.method superclass isStatic d, front⟩ :: outer) =
      some (inner.length + 1) := by
  have own {c : Enclosure} (hc : c.frame.Proper ∧ c.front <+: c.frame.body) :
      word ∉ c.frame.parameters ++ Stmt.declaredBy c.front := fun hm =>
    hc.1.names word (((hc.2.sublist.filterMap _).append_left _).subset hm) hr
  unfold lexicalDistance?
  induction inner with
  | nil =>
    have body := own (h _ List.mem_cons_self)
    have word := hw _ List.mem_cons_self
    rw [List.nil_append, List.flatMap_cons, Enclosure.scopes, List.cons_append, List.findIdx?_cons,
      decide_eq_false body, Frame.receiver, List.cons_append, List.findIdx?_cons,
      decide_eq_true word]
    rfl
  | cons c inner ih =>
    have body := own (h c List.mem_cons_self)
    have behind := ih (fun c' hc => h c' (List.mem_cons_of_mem _ hc))
      fun c' hc => hi c' (List.mem_cons_of_mem _ hc)
    have plain : c.frame.receiver = [] := by
      have none := hi c List.mem_cons_self
      cases hc : c.frame with
      | block | function => rfl
      | method => simp [hc, Frame.heritage?] at none
    rw [List.cons_append, List.flatMap_cons, Enclosure.scopes, plain, List.cons_append,
      List.findIdx?_cons, decide_eq_false body, List.nil_append, behind]
    rfl

/-- In a class that extends another the nearest scope of a receiver has what `super` stands for. -/
theorem receiver_distance (h : ∀ c ∈ around, c.frame.Proper ∧ c.front <+: c.frame.body)
    (hc : (Context.of around).cls = .derived) :
    lexicalDistance? "this" around = lexicalDistance? "super" around := by
  obtain ⟨extended, heritage⟩ := Context.of_cls_eq_derived.mp hc
  obtain ⟨inner, isStatic, d, front, outer, rfl, nearest⟩ := heritage?_eq_some heritage
  have this := word_distance h nearest (.inl rfl) (by simp [Frame.receiver])
  have super := word_distance h nearest (.inr rfl) (by simp [Frame.receiver])
  exact this.trans super.symm

end Around

/-- The walk comes to a node that names a binding where the node stands in the program. -/
theorem Visits.stands {program : List Stmt} {r : Resolution} (h : Analyzed program r) {P : Place}
    (hv : Visits program P) {e : Expr} {reference : Reference} (hf : P.fragment = .expr e)
    (hr : e.reference? = some reference) :
    ∃ around, Stands program (.expr e) around ∧ P.declared = around.flatMap (·.frame.names) ∧
      Surrounded program (.expr e) around P.context P.progress.scopes := by
  have own := Place.mem_own hf hr
  obtain ⟨reference', hm, hid⟩ := List.mem_map.mp (Place.own_subset hv own)
  obtain ⟨e', around, hr', hs⟩ := Stands.node hm
  obtain ⟨context, _, surrounded⟩ := hs.surrounded h
  obtain ⟨p, rfl, hv'⟩ := surrounded.reached
  have own' : reference'.id ∈
      Place.own ⟨context, around.flatMap (·.frame.names), p, .expr e'⟩ := Place.mem_own rfl hr'
  cases h.visits_unique hv own hv' (hid ▸ own')
  cases hf
  exact ⟨around, hs, rfl, surrounded⟩

end Scoping

end ClassScript
